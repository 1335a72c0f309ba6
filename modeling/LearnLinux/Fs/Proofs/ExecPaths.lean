/-
The ways out of `do_execve`.

Every error exit ends in `exec_error1`, with the inode given back and the
argument pages still held: what is left to show is that the pages go
back, once, and that the references taken on the way were given back.
`doExecve_copied` says what the call does for each way in which the
strings can end up.
-/
import LearnLinux.Fs.Proofs.ExecCopy

namespace LearnLinux.Exec

open Mm Lib

variable {lo hi : Nat} {s₀ m : Mem} {D : Disk} {s : Sys}
variable {i n : Nat}

-- ======== giving pages back

/-- Memory that is in use is as it was, and no more or less is in
use. -/
structure SameMemory (m m' : Mem) : Prop where
  map : m'.memMap = m.memMap
  high : m'.highMemory = m.highMemory
  word : ∀ k, ¬ (256 ≤ k / 1024 ∧ m.memMap (k / 1024 - 256) = 0) → m'.word k = m.word k

theorem SameMemory.refl (m : Mem) : SameMemory m m :=
  ⟨rfl, rfl, fun _ _ => rfl⟩

/-- The pages from `page[i]` on are held, those before it have been given
back. -/
structure Returned (s₀ : Mem) (b : Block) (i : Nat) (m : Mem) : Prop where
  word : m.word = b.mem.word
  high : m.highMemory = s₀.highMemory
  held : ∀ j, i ≤ j → j < MAX_ARG_PAGES → b.page j ≠ 0 → m.memMap (b.page j / 4096 - 256) = 1
  back : ∀ k, (∀ j, i ≤ j → j < MAX_ARG_PAGES → b.page j ≠ 0 →
    b.page j / 4096 - 256 ≠ k) → m.memMap k = s₀.memMap k

section Return

variable {b : Block}

theorem Block.Ok.frame_ge (h : b.Ok lo hi s₀) {j : Nat}
    (hj : j < MAX_ARG_PAGES) (hp : b.page j ≠ 0) :
    256 ≤ b.page j / 4096 ∧ b.page j / 4096 < hi := by
  have hmain := (h.paging.held _ (page_mem_heldFrames hj hp)).1
  exact ⟨h.paging.main_ge hmain, hmain.2⟩

theorem Block.Ok.returned_zero (h : b.Ok lo hi s₀) : Returned s₀ b 0 b.mem := by
  refine ⟨rfl, h.high, ?_, ?_⟩
  · intro j _ hj hp
    have hge := h.frame_ge hj hp
    rw [h.map, if_pos]
    rw [Nat.sub_add_cancel hge.1]
    exact page_mem_heldFrames hj hp
  · intro k hk
    rw [h.map, if_neg]
    intro hc
    obtain ⟨j, hj, hp, he⟩ := mem_heldFrames.mp hc
    apply hk j (Nat.zero_le j) hj hp
    omega

section

variable (h : b.Ok lo hi s₀) (hhigh : s₀.highMemory = hi * 4096)
include h hhigh

/-- One turn of the loop at `exec_error1`. -/
theorem Returned.step {i : Nat} {m : Mem} (hi' : i < MAX_ARG_PAGES) (hr : Returned s₀ b i m) :
    ∃ m', freePage (b.page i) m = .ok m' ∧ Returned s₀ b (i + 1) m' := by
  by_cases h0 : b.page i = 0
  · -- an entry that is 0 is below `LOW_MEM`
    refine ⟨m, ?_, hr.word, hr.high, ?_, ?_⟩
    · unfold freePage
      rw [h0, if_pos (by unfold lowMem; omega)]
    · intro j hj hlt hp
      exact hr.held j (by omega) hlt hp
    · intro k hk
      apply hr.back k
      intro j hj hlt hp
      refine hk j ?_ hlt hp
      have : j ≠ i := by
        rintro rfl
        exact hp h0
      omega
  · have hge := h.frame_ge hi' h0
    have hone := hr.held i (le_refl i) hi' h0
    have hmap : mapNr (b.page i) = b.page i / 4096 - 256 := by
      unfold mapNr lowMem
      omega
    have hwas := h.was _ (page_mem_heldFrames hi' h0)
    have hinj : ∀ j, j < MAX_ARG_PAGES → b.page j ≠ 0 →
        b.page j / 4096 - 256 = b.page i / 4096 - 256 → j = i := by
      intro j hj hp he
      have hgej := h.frame_ge hj hp
      have ha := h.addr i hi'
      have haj := h.addr j hj
      exact h.inj j i hj hi' hp (by omega)
    generalize b.page i / 4096 - 256 = f at hone hmap hwas hinj
    refine ⟨m.decMap f, ?_, hr.word, hr.high, ?_, ?_⟩
    · unfold freePage
      rw [if_neg (by unfold lowMem; omega), if_neg (by
        rw [hr.high]
        omega), hmap, if_neg (by omega)]
    · intro j hj hlt hp
      rw [Mem.decMap_memMap, if_neg]
      · exact hr.held j (by omega) hlt hp
      · intro he
        have := hinj j hlt hp he
        omega
    · intro k hk
      rw [Mem.decMap_memMap]
      by_cases hkf : k = f
      · subst hkf
        rw [if_pos rfl, hone, hwas]
      · rw [if_neg hkf]
        apply hr.back k
        intro j hj hlt hp he
        by_cases hji : j = i
        · subst hji
          unfold mapNr lowMem at hmap
          omega
        · exact hk j (by omega) hlt hp he

theorem freePages_returned (n : Nat) :
    ∀ (i : Nat) (m : Mem), i + n = MAX_ARG_PAGES → Returned s₀ b i m →
      ∃ m', freePages b.page n i m = .ok m' ∧ Returned s₀ b MAX_ARG_PAGES m' := by
  induction n with
  | zero =>
    intro i m hn hr
    rw [Nat.add_zero] at hn
    rw [hn] at hr
    exact ⟨m, rfl, hr⟩
  | succ n ih =>
    intro i m hn hr
    obtain ⟨m1, hfree, hr1⟩ := hr.step h hhigh (by omega)
    obtain ⟨m', hrest, hr'⟩ := ih (i + 1) m1 (by omega) hr1
    refine ⟨m', ?_, hr'⟩
    rw [freePages, hfree]
    exact hrest

/-- `exec_error1` gives every page back. -/
theorem execError1_same (retval : Int) (s : Sys) : ∃ m, execError1 retval b.page (s.setMem b.mem) =
        .ok (.failed retval (s.setMem m)) ∧ SameMemory s₀ m := by
  obtain ⟨m, hm, hr⟩ := freePages_returned h hhigh MAX_ARG_PAGES 0 b.mem
    (Nat.zero_add _) h.returned_zero
  refine ⟨m, ?_, ?_, hr.high, ?_⟩
  · show (freePages b.page MAX_ARG_PAGES 0 b.mem >>= _) = _
    rw [hm]
    rfl
  · funext k
    apply hr.back k
    intro j hj hlt
    omega
  · intro k hk
    rw [hr.word]
    apply h.out
    intro hheld
    apply hk
    have hge := h.paging.main_ge (h.paging.held _ hheld).1
    exact ⟨hge, h.was _ hheld⟩

end

end Return

-- ======== references

@[simp] theorem Sys.iput_iget (s : Sys) (i : Nat) : (s.iget i).iput i = s := by
  simp [Sys.iput, Sys.iget]

@[simp] theorem Sys.brelse_bget (s : Sys) (b : Nat) : (s.bget b).brelse b = s := by
  simp [Sys.brelse, Sys.bget]

theorem Sys.iput_setMem (s : Sys) : (s.setMem m).iput i = (s.iput i).setMem m := rfl

@[simp] theorem Sys.iget_proc (s : Sys) : (s.iget i).proc = s.proc := rfl

theorem execError2_iget {retval : Int} {inode : Nat} {page : Nat → Nat}
    : execError2 retval inode page ((s.iget inode).setMem m) =
      execError1 retval page (s.setMem m) := by
  unfold execError2
  rw [Sys.iput_setMem, Sys.iput_iget]

-- ======== the passes

/-- How the call ends once the strings are copied: an error that gives
back what it had, or the point of no return. -/
inductive Settled (D : Disk) (s : Sys) (p : UInt32) (b : Block) : Result → Prop where
  | failed (retval : Int) (hneg : retval < 0) :
      Settled D s p b (execError1 retval b.page (s.setMem b.mem))
  | loaded (r : Locals) (ex : Header) (euid egid : Nat) (hp : r.p = p)
      (hpage : r.page = b.page) : Settled D s p b (pointOfNoReturn D r ex euid egid
          ((s.iget r.inode).setMem b.mem))

/-- The second pass: the interpreter is loaded, or it fails. -/
theorem restartInterp_settled {argv envp : List Str} (r : Locals)
    (b : Block) (hpage : r.page = b.page) : Settled D s r.p b (restartInterp D none argv envp r
      ((s.iget r.inode).setMem b.mem)) := by
  unfold restartInterp
  dsimp only
  split
  · rw [execError2_iget, hpage]
    exact .failed _ (by decide)
  split
  · rw [execError2_iget, hpage]
    exact .failed _ (by decide)
  simp only [Option.isNone_none]
  cases D.bread true r.inode with
  | none =>
    rw [execError2_iget, hpage]
    exact .failed _ (by decide)
  | some data =>
    rw [Sys.brelse_bget]
    unfold loadImage
    dsimp only
    split
    · rw [execError2_iget, hpage]
      exact .failed _ (by decide)
    · exact .loaded r _ _ _ rfl hpage

/-- The first pass reads the file `data` of an inode that may be run. -/
structure Opens (D : Disk) (filename : Str) (s : Sys) (inode : Nat) (data : List UInt8) : Prop where
  namei : D.namei false filename = some inode
  reg : isReg (D.inode inode).mode = true
  may : mayExec s.proc (D.inode inode) = true
  bread : D.bread false inode = some data

section First

variable {filename : Str} {argv envp : List Str} {inode : Nat} {data : List UInt8}

/-- The first pass: a script, or an image. -/
theorem Opens.doExecve (ho : Opens D filename s inode data) :
    Exec.doExecve D filename argv envp s = if isScript data then
      interpretScript D filename argv envp data
        ⟨inode, argv.length, envp.length, UInt32.ofNat argTop, fun _ => 0⟩
        ((s.iget inode).bget (D.inode inode).zone)
    else loadImage D false argv envp data
      ⟨inode, argv.length, envp.length, UInt32.ofNat argTop, fun _ => 0⟩ (s.iget inode) := by
  unfold Exec.doExecve
  rw [ho.namei]
  unfold restartInterp
  dsimp only
  rw [if_neg (by simp [ho.reg]), if_neg (by simp [ho.may]), Option.isNone_some, ho.bread]
  dsimp only
  cases isScript data with
  | true => rw [if_pos rfl]
  | false => rw [Sys.brelse_bget, if_neg Bool.false_ne_true]

/-- `argc` for a script. -/
def scriptArgc (argv : List Str) (it : Interp) : Int :=
  let argc := (argv.length : Int) - 1
  let argc := argc + 1
  let argc := if it.iArg.isSome then argc + 1 else argc
  argc + 1

/-- A script whose line names an interpreter. -/
theorem interpretScript_some {it : Interp}
    (hit : parseInterp data = some it) : interpretScript D filename argv envp data
      ⟨inode, argv.length, envp.length, UInt32.ofNat argTop, fun _ => 0⟩
      ((s.iget inode).bget (D.inode inode).zone) =
    (copyAll (scriptCalls filename argv envp it) (UInt32.ofNat argTop)
      (emptyBlock s.mem) >>= fun x =>
        if x.1 = 0 then execError1 (-ENOMEM) x.2.page (s.setMem x.2.mem)
        else match D.namei true it.interp with
          | none => execError1 (-ENOENT) x.2.page (s.setMem x.2.mem)
          | some inode => restartInterp D none argv envp
              ⟨inode, scriptArgc argv it, envp.length, x.1, x.2.page⟩
              ((s.iget inode).setMem x.2.mem)) := by
  unfold interpretScript
  rw [hit]
  rw [Sys.brelse_bget, Sys.iput_iget]
  rfl

/-- A first pass that fails to open its file. -/
theorem doExecve_unopened (h : ∀ inode data, ¬ Opens D filename s inode data) :
    ∃ retval < 0, doExecve D filename argv envp s = .ok (.failed retval s) ∨
      doExecve D filename argv envp s = execError1 retval (fun _ => 0) s := by
  unfold doExecve
  cases hn : D.namei false filename with
  | none => exact ⟨-ENOENT, by decide, .inl rfl⟩
  | some inode =>
    unfold restartInterp
    dsimp only
    split
    · exact ⟨-EACCES, by decide, .inr (execError2_iget (m := s.mem))⟩
    rename_i hreg
    split
    · exact ⟨-ENOEXEC, by decide, .inr (execError2_iget (m := s.mem))⟩
    rename_i hmay
    rw [Option.isNone_some]
    cases hb : D.bread false inode with
    | none => exact ⟨-EACCES, by decide, .inr (execError2_iget (m := s.mem))⟩
    | some data =>
      exact absurd ⟨hn, by simpa using hreg, by simpa using hmay, hb⟩ (h inode data)

/-- The strings that `do_execve` copies, call by call, if it comes to
that. -/
def copies (D : Disk) (filename : Str) (argv envp : List Str) (s : Sys) :
    Option (List (List Str)) :=
  match D.namei false filename with
  | none => none
  | some inode =>
    if isReg (D.inode inode).mode && mayExec s.proc (D.inode inode) then
      match D.bread false inode with
      | none => none
      | some data =>
        if isScript data then
          (parseInterp data).map (scriptCalls filename argv envp)
        else if badHeader (readHeader data) (D.inode inode).size then none
        else some [envp, argv]
    else none

theorem Opens.copies (ho : Opens D filename s inode data) : copies D filename argv envp s =
      if isScript data then
        (parseInterp data).map (scriptCalls filename argv envp)
      else if badHeader (readHeader data) (D.inode inode).size then none
      else some [envp, argv] := by
  unfold Exec.copies
  rw [ho.namei]
  dsimp only
  rw [ho.reg, ho.may, ho.bread]
  rfl

theorem copies_unopened (h : ∀ inode data, ¬ Opens D filename s inode data) :
    copies D filename argv envp s = none := by
  unfold copies
  split
  · rfl
  split
  · rename_i inode hn hok
    rw [Bool.and_eq_true] at hok
    split
    · rfl
    · rename_i data hb
      exact absurd ⟨hn, hok.1, hok.2, hb⟩ (h inode data)
  · rfl

/-- What the call does, by what it copies. -/
theorem doExecve_eq (D : Disk) (filename : Str) (argv envp : List Str) (s : Sys) :
    match copies D filename argv envp s with
    | none => ∃ retval < 0, doExecve D filename argv envp s = .ok (.failed retval s) ∨
        doExecve D filename argv envp s = execError1 retval (fun _ => 0) s
    | some cs => ∃ next : UInt32 → Block → Result, (∀ p b, Settled D s p b (next p b)) ∧
        doExecve D filename argv envp s =
          (copyAll cs (UInt32.ofNat argTop) (emptyBlock s.mem) >>= fun x =>
            if x.1 = 0 then execError1 (-ENOMEM) x.2.page (s.setMem x.2.mem)
            else next x.1 x.2) := by
  by_cases hopen : ∃ inode data, Opens D filename s inode data
  · obtain ⟨inode, data, ho⟩ := hopen
    rw [ho.copies, ho.doExecve]
    cases isScript data with
    | true =>
      rw [if_pos rfl, if_pos rfl]
      cases hit : parseInterp data with
      | none =>
        refine ⟨-ENOEXEC, by decide, .inr ?_⟩
        unfold interpretScript
        rw [hit]
        rw [Sys.brelse_bget, Sys.iput_iget]
      | some it =>
        rw [Option.map_some, interpretScript_some hit]
        refine ⟨fun p b => match D.namei true it.interp with
          | none => execError1 (-ENOENT) b.page (s.setMem b.mem)
          | some inode => restartInterp D none argv envp
              ⟨inode, scriptArgc argv it, envp.length, p, b.page⟩
              ((s.iget inode).setMem b.mem), ?_, rfl⟩
        intro p b
        cases D.namei true it.interp with
        | none => exact .failed _ (by decide)
        | some inode =>
          exact restartInterp_settled ⟨inode, scriptArgc argv it, envp.length, p, b.page⟩ b rfl
    | false =>
      rw [if_neg Bool.false_ne_true, if_neg Bool.false_ne_true]
      unfold loadImage
      by_cases hbad : badHeader (readHeader data) (D.inode inode).size = true
      · rw [if_pos hbad, if_pos hbad]
        exact ⟨-ENOEXEC, by decide, .inr (execError2_iget (m := s.mem))⟩
      · rw [if_neg hbad, if_neg hbad, if_neg Bool.false_ne_true]
        refine ⟨fun p b => pointOfNoReturn D
          ⟨inode, argv.length, envp.length, p, b.page⟩ (readHeader data)
          (newId (D.inode inode).mode 0o4000 (D.inode inode).uid s.proc.euid)
          (newId (D.inode inode).mode 0o2000 (D.inode inode).gid s.proc.egid)
          ((s.iget inode).setMem b.mem), ?_, ?_⟩
        · intro p b
          exact .loaded ⟨inode, argv.length, envp.length, p, b.page⟩ _ _ _ rfl rfl
        · congr 1
          funext x
          dsimp only
          rw [execError2_iget]
          rfl
  · have hno : ∀ inode data, ¬ Opens D filename s inode data :=
      fun inode data ho => hopen ⟨inode, data, ho⟩
    rw [copies_unopened hno]
    exact doExecve_unopened hno

end First

-- ======== no index is out of range

/-- The routine does not leave `page[]`. -/
def NoWild {α : Type} (x : Except Halt α) : Prop :=
  ∀ i, x ≠ .error (.wild i)

section NoWild

variable {α β : Type}

theorem NoWild.ok (a : α) : NoWild (.ok a : Except Halt α) := by
  intro i h
  cases h

theorem NoWild.limit : NoWild (.error .limit : Except Halt α) := by
  intro i h
  cases h

theorem NoWild.trap (t : Trap) : NoWild (.error (.trap t) : Except Halt α) := by
  intro i h
  cases h

theorem NoWild.bind {x : Except Halt α} {f : α → Except Halt β}
    (hx : NoWild x) (hf : ∀ a, NoWild (f a)) : NoWild (x >>= f) := by
  cases x with
  | ok a => exact hf a
  | error e =>
    intro i h
    apply hx i
    cases h
    rfl

variable {T : Tasks} {cur : Nat} {current : Task}

theorem putFsLong_noWild (w addr : Nat) : NoWild (putFsLong T cur current w addr m) := by
  unfold putFsLong
  split
  · exact NoWild.limit
  · split
    · exact NoWild.ok _
    · exact NoWild.trap _

theorem getFsByte_noWild (addr : Nat) : NoWild (getFsByte T cur current addr m) := by
  unfold getFsByte
  split
  · exact NoWild.limit
  · split
    · exact NoWild.ok _
    · exact NoWild.trap _

theorem skipString_noWild : ∀ (p : Nat) (m : Mem), NoWild (skipString T cur current n p m) := by
  induction n with
  | zero =>
    intro p m
    exact NoWild.limit
  | succ n ih =>
    intro p m
    refine (getFsByte_noWild p).bind ?_
    intro x
    dsimp only
    split
    · exact NoWild.ok _
    · exact ih _ _

theorem fillTable_noWild : ∀ (p tab : Nat) (m : Mem),
    NoWild (fillTable T cur current n p tab m) := by
  induction n with
  | zero =>
    intro p tab m
    exact (putFsLong_noWild _ _).bind fun _ => NoWild.ok _
  | succ n ih =>
    intro p tab m
    refine (putFsLong_noWild _ _).bind fun m1 => ?_
    exact (skipString_noWild _ m1).bind fun x => ih _ _ _

theorem createTables_noWild (p argc envc : Nat) :
    NoWild (createTables T cur current p argc envc m) := by
  refine (putFsLong_noWild _ _).bind fun m1 => ?_
  refine (putFsLong_noWild _ _).bind fun m2 => ?_
  refine (putFsLong_noWild _ _).bind fun m3 => ?_
  refine (fillTable_noWild _ _ m3).bind fun x => ?_
  exact (fillTable_noWild _ _ _).bind fun _ => NoWild.ok _

theorem buildStack_noWild (codeLimit oldLimit argc envc : Nat) (p : UInt32) (b : Block) :
    NoWild (buildStack T cur current codeLimit oldLimit argc envc p b) := by
  unfold buildStack
  dsimp only
  split
  · exact NoWild.trap _
  · split
    · exact NoWild.trap _
    · exact createTables_noWild _ _ _

theorem clearRest_noWild : NoWild (clearRest D s i m) := by
  unfold clearRest
  split
  · exact NoWild.limit
  · split
    · exact NoWild.ok _
    · exact NoWild.trap _

theorem pointOfNoReturn_noWild (r : Locals) (ex : Header) (euid egid : Nat) : NoWild (pointOfNoReturn D r ex euid egid s) := by
  refine (buildStack_noWild _ _ _ _ _ _).bind fun x => ?_
  exact clearRest_noWild.bind fun _ => NoWild.ok _

end NoWild

/-- Everything that the caller has, and every count, is as before. -/
structure Untouched (s s' : Sys) : Prop where
  proc : s'.proc = s.proc
  iCount : s'.iCount = s.iCount
  bCount : s'.bCount = s.bCount
  fCount : s'.fCount = s.fCount
  mathOwner : s'.mathOwner = s.mathOwner
  memMap : s'.mem.memMap = s.mem.memMap
  dir : ∀ i, i < 1024 → s'.mem.word i = s.mem.word i
  table : ∀ i j, UserDir i → j < 1024 → pteAt s'.mem i j = pteAt s.mem i j
  read : ∀ a, UserAddr a → userRead s'.mem a = userRead s.mem a

/-- Page tables and mapped pages are memory in use. -/
theorem SameMemory.untouched (h : SameMemory s.mem m)
    (hpg : Paging lo hi ∅ s.mem) : Untouched s (s.setMem m) := by
  have hdir : ∀ i, i < 1024 → m.word i = s.mem.word i := by
    intro i hi'
    apply h.word
    omega
  have hused : ∀ f, InMain lo hi f → frameRefs s.mem f ≠ 0 → s.mem.memMap (f - 256) ≠ 0 := by
    intro f hf hr
    rw [hpg.count f hf]
    omega
  have htable : ∀ i j, UserDir i → j < 1024 → pteAt m i j = pteAt s.mem i j := by
    intro i j hi' hj
    refine pteAt_congr (hdir i hi'.2) fun hp => h.word _ ?_
    obtain ⟨hin, hone⟩ := hpg.table i hi' hp
    have := hused _ hin (by omega)
    rw [show (frame (s.mem.word i) * 1024 + j) / 1024 = frame (s.mem.word i) by omega]
    exact fun hc => this hc.2
  refine ⟨rfl, rfl, rfl, rfl, rfl, h.map, hdir, htable, ?_⟩
  intro a ha
  apply userRead_congr
  refine pageWord_congr (htable _ _ ha.dir (pageNr_lt a)) fun hp => ?_
  apply h.word
  rw [show (frame (pteAt s.mem (dirNr a) (pageNr a)) * 1024 +
    a % 4096 / 4) / 1024 = frame (pteAt s.mem (dirNr a) (pageNr a)) by omega]
  rintro ⟨hge, h0⟩
  rcases hpg.page _ _ ha.dir (pageNr_lt a) hp with hlow | hin
  · omega
  · have hpos := frameRefs_page_pos ha.dir (pageNr_lt a) hp
    exact hused _ hin (by omega) h0

-- ======== a machine

/-- Memory after boot with 12 Mb to give. -/
def bootedMem : Mem := bootMem 0x400000 0x1000000 ⟨fun _ => 0, fun _ => 0, 0⟩

/-- A task of the superuser that runs nothing yet. -/
def bootedSys : Sys where
  mem := bootedMem
  proc :=
    { executable := none
      handler := fun _ => 0
      filp := fun _ => none
      closeOnExec := 0
      euid := 0
      egid := 0
      codeLimit := 0xA0000
      dataLimit := 0xA0000
      endCode := 0
      endData := 0
      brk := 0
      startStack := 0
      usedMath := false }
  iCount := fun _ => 1
  bCount := fun _ => 0
  fCount := fun _ => 0
  mathOwner := none

/-- A disk on which every name leads to one executable file with the
contents `data`; the second pass finds its file or not. -/
def oneFile (data : List UInt8) (second : Bool) : Disk where
  nr := 1
  namei := fun pass _ => if pass && !second then none else some 7
  inode := fun _ => ⟨0o100755, 0, 0, 1024, 100⟩
  bread := fun _ _ => some data
  task := fun _ => none
  fileBlock := fun _ _ => none

/-- The header of a program without text or data. -/
def imageData : List UInt8 := [11, 1] ++ List.replicate 1022 0

theorem booted_bounds : MemBounds 0x400000 0x1000000 :=
  ⟨by decide, by decide, by decide, by decide, by decide⟩

theorem acct_booted : Acct 0x400 0x1000 bootedSys.mem :=
  acct_bootMem booted_bounds

/-- The characters `n` times `a`. -/
def letters (n : Nat) : Str where
  chars := List.replicate n 97
  noNul := by
    intro h
    exact absurd (List.eq_of_mem_replicate h) (by decide)

theorem length_flat_letters : (flat [letters n]).length = n + 1 := by
  simp [flat, Str.bytes, letters]

section Results

variable {filename : Str} {argv envp : List Str}

/-- How a call ends that copies `cs`. -/
inductive Ending (D : Disk) (s : Sys) (cs : List (List Str)) : Result → Prop where
  | refused {s' : Sys} (hsame : Untouched s s') (hwhy : freeCount s.mem < MAX_ARG_PAGES ∨
        argTop ≤ (flat (laid cs)).length ∧ ¬ Overruns cs argTop) :
      Ending D s cs (.ok (.failed (-ENOMEM) s'))
  | wild {i : Nat} (hfree : MAX_ARG_PAGES ≤ freeCount s.mem)
      (hover : Overruns cs argTop) : Ending D s cs (.error (.wild i))
  | failed {retval : Int} {s' : Sys} (hneg : retval < 0)
      (hsame : Untouched s s') (hfit : (flat (laid cs)).length < argTop) :
      Ending D s cs (.ok (.failed retval s'))
  | entered (r : Locals) (ex : Header) (euid egid : Nat) (s' : Sys)
      (hfit : (flat (laid cs)).length < argTop) :
      Ending D s cs (pointOfNoReturn D r ex euid egid s')

/-- The error exits leave everything as it was. -/
theorem execError1_untouched (ha : Acct lo hi s.mem) {b : Block}
    (hok : b.Ok lo hi s.mem) (retval : Int) : ∃ s', execError1 retval b.page (s.setMem b.mem) =
      .ok (.failed retval s') ∧ Untouched s s' := by
  obtain ⟨m, hm, hsame⟩ := execError1_same hok ha.high retval s
  exact ⟨s.setMem m, hm, hsame.untouched ha.paging⟩

theorem argTop_toNat : (UInt32.ofNat argTop).toNat = argTop := by decide

/-- Nothing is copied: the call fails. -/
theorem doExecve_ending_none (ha : Acct lo hi s.mem) (h : copies D filename argv envp s = none) :
    ∃ retval < 0, ∃ s', doExecve D filename argv envp s =
      .ok (.failed retval s') ∧ Untouched s s' := by
  have heq := doExecve_eq D filename argv envp s
  rw [h] at heq
  obtain ⟨retval, hneg, heq | heq⟩ := heq
  · exact ⟨retval, hneg, s, heq, (SameMemory.refl _).untouched ha.paging⟩
  · obtain ⟨s', hs', hsame⟩ :=
      execError1_untouched ha (emptyBlock_ok ha.paging) retval
    exact ⟨retval, hneg, s', heq.trans hs', hsame⟩

/-- The strings `cs` are copied: the four ways. -/
theorem doExecve_ending (ha : Acct lo hi s.mem) {cs : List (List Str)}
    (h : copies D filename argv envp s = some cs) :
    Ending D s cs (doExecve D filename argv envp s) := by
  have heq := doExecve_eq D filename argv envp s
  rw [h] at heq
  obtain ⟨next, hnext, heq⟩ := heq
  have hdown : (emptyBlock s.mem).DownTo lo hi s.mem (UInt32.ofNat argTop).toNat := by
    refine ⟨emptyBlock_ok ha.paging, ?_, le_refl _⟩
    intro q h1 h2
    rw [argTop_toNat] at h1
    omega
  have hcs := copyAll_done cs _ _ hdown
  rw [heq]
  generalize copyAll cs (UInt32.ofNat argTop) (emptyBlock s.mem) = x at hcs
  cases hcs with
  | @refused b hok hwhy =>
    obtain ⟨s', hs', hsame⟩ := execError1_untouched ha hok (-ENOMEM)
    show Ending D s cs (execError1 (-ENOMEM) b.page (s.setMem b.mem))
    rw [hs']
    refine .refused hsame ?_
    rw [argTop_toNat] at hwhy
    exact hwhy.imp (fun hno => hno.lt hok) id
  | wild hok hfull hover =>
    rw [argTop_toNat] at hover
    exact .wild (hfull.le hok) hover
  | @done p b hne hd hpush =>
    have hfit : (flat (laid cs)).length < argTop := by
      have h1 := hpush.pos
      have h2 := toNat_ne_zero hne
      rw [argTop_toNat] at h1
      omega
    show Ending D s cs (if p = 0 then _ else next p b)
    rw [if_neg hne]
    have hset := hnext p b
    generalize next p b = y at hset
    cases hset with
    | failed retval hneg =>
      obtain ⟨s', hs', hsame⟩ := execError1_untouched ha hd.ok retval
      rw [hs']
      exact .failed hneg hsame hfit
    | loaded r ex euid egid _ _ => exact .entered r ex euid egid _ hfit

/-- No index of `page[]` is out of range, and strings that do not fit are
refused, with every page given back. -/
structure Refuses (D : Disk) (filename : Str) (argv envp : List Str) (s : Sys) : Prop where
  index : ∀ i, doExecve D filename argv envp s ≠ .error (.wild i)
  nomem : ∀ cs, copies D filename argv envp s = some cs → argTop < (flat (laid cs)).length →
    ∃ s', doExecve D filename argv envp s = .ok (.failed (-ENOMEM) s') ∧
      s'.mem.memMap = s.mem.memMap

/-- Oversized strings are refused just when there are not 32 pages for
them, or the area has been filled to the last byte when a call of
`copy_strings` starts. -/
theorem oversized_refused_iff (D : Disk) (filename : Str)
    (argv envp : List Str) (s : Sys) (ha : Acct lo hi s.mem) : Refuses D filename argv envp s ↔
      ∀ cs, copies D filename argv envp s = some cs →
        Overruns cs argTop → freeCount s.mem < MAX_ARG_PAGES := by
  cases hc : copies D filename argv envp s with
  | none =>
    obtain ⟨retval, hneg, s', hs', hsame⟩ := doExecve_ending_none ha hc
    apply iff_of_true
    · refine ⟨?_, ?_⟩
      · intro i h
        rw [hs'] at h
        cases h
      · intro cs h
        rw [hc] at h
        cases h
    · intro cs h
      cases h
  | some cs =>
    have hend := doExecve_ending ha hc
    have hiff : Refuses D filename argv envp s ↔
        (∀ i, doExecve D filename argv envp s ≠ .error (.wild i)) ∧
        (argTop < (flat (laid cs)).length → ∃ s',
          doExecve D filename argv envp s = .ok (.failed (-ENOMEM) s') ∧
            s'.mem.memMap = s.mem.memMap) := by
      constructor
      · intro h
        exact ⟨h.index, h.nomem cs hc⟩
      · intro h
        refine ⟨h.1, ?_⟩
        intro cs' hc'
        rw [hc] at hc'
        cases hc'
        exact h.2
    rw [hiff]
    generalize doExecve D filename argv envp s = x at hend
    cases hend with
    | refused hsame hwhy =>
      apply iff_of_true
      · exact ⟨NoWild.ok _, fun _ => ⟨_, rfl, hsame.memMap⟩⟩
      · intro cs' hc' hover
        cases hc'
        rcases hwhy with hlt | hno
        · exact hlt
        · exact absurd hover hno.2
    | wild hfree hover =>
      apply iff_of_false
      · intro h
        exact h.1 _ rfl
      · intro h
        have := h cs rfl hover
        omega
    | failed hneg hsame hfit =>
      apply iff_of_true
      · refine ⟨NoWild.ok _, ?_⟩
        intro hlt
        omega
      · intro cs' hc' hover
        cases hc'
        exact absurd hover (not_overruns (le_of_lt hfit))
    | entered r ex euid egid s' hfit =>
      apply iff_of_true
      · refine ⟨pointOfNoReturn_noWild r ex euid egid, ?_⟩
        intro hlt
        omega
      · intro cs' hc' hover
        cases hc'
        exact absurd hover (not_overruns (le_of_lt hfit))

theorem copies_image (argv envp : List Str) :
    copies (oneFile imageData false) (letters 1) argv envp bootedSys = some [envp, argv] := by
  have ho : Opens (oneFile imageData false) (letters 1) bootedSys 7
      imageData := ⟨rfl, by decide, by decide, rfl⟩
  rw [ho.copies, if_neg (by decide), if_neg (by decide)]

/-- A few strings: they fit, and no index is out of range. -/
theorem oversized_refused_iff_small :
    Refuses (oneFile imageData false) (letters 1) [letters 2] [letters 3]
      bootedSys ∧ ¬ Overruns [[letters 3], [letters 2]] argTop := by
  have hno : ¬ Overruns [[letters 3], [letters 2]] argTop := by decide
  refine ⟨(oversized_refused_iff _ _ _ _ _ acct_booted).mpr ?_, hno⟩
  intro cs hc hover
  rw [copies_image] at hc
  cases hc
  exact absurd hover hno

/-- At least 32 pages are free after boot. -/
theorem le_freeCount_booted : MAX_ARG_PAGES ≤ freeCount bootedSys.mem := by
  have hsub : Finset.Ico 1000 1032 ⊆ (Finset.range pagingPages).filter
      fun k => bootedSys.mem.memMap k = 0 := by
    intro k hk
    rw [Finset.mem_Ico] at hk
    rw [Finset.mem_filter, Finset.mem_range]
    have hmap := bootMem_map booted_bounds ⟨fun _ => 0, fun _ => 0, 0⟩
      (f := k + 256) (by omega) (by omega)
    rw [Nat.add_sub_cancel, if_pos ⟨by omega, by omega⟩] at hmap
    refine ⟨?_, hmap⟩
    unfold pagingPages
    omega
  have hcard := Finset.card_le_card hsub
  rw [Nat.card_Ico] at hcard
  exact hcard

/-- One argument of 128 kB, and a program that exists: `page[]` is left
behind. -/
theorem oversized_not_refused : ¬ Refuses (oneFile imageData false) (letters 1) [letters 131072] []
      bootedSys := by
  intro h
  have hend := doExecve_ending acct_booted (copies_image [letters 131072] [])
  have hover : Overruns [[], [letters 131072]] argTop := by
    refine ⟨by decide, .inr ⟨by decide, .inl ?_⟩⟩
    rw [length_flat_letters]
    decide
  have hindex := h.index
  generalize doExecve (oneFile imageData false) (letters 1)
    [letters 131072] [] bootedSys = x at hend hindex
  cases hend with
  | refused _ hwhy =>
    rcases hwhy with hlt | hno
    · have := le_freeCount_booted
      omega
    · exact hno.2 hover
  | wild _ _ => exact hindex _ rfl
  | failed _ _ hfit | entered _ _ _ _ _ hfit => exact not_overruns (le_of_lt hfit) hover

end Results

end LearnLinux.Exec
