/-
How the references that a call holds are kept account of.

# The view

The results about references, mount points and dirty inodes all speak of
the same few variables of the kernel: the part of each inode that is in
memory only, the mount table, the counts of the buffers and the trace.
That is the `View` of a state. Most of what a routine does, to the bytes
of a block, the zones of an inode or the lists of the cache, leaves it
alone.

# The logic

A `Logic` is an invariant of the view that depends on the references the
running call holds, a multiset, and a condition on the ways a call may
fail to return. `L.Runs h x R` says that the routine `x`, started with the
references `h` in any state where the invariant holds, ends with the
references `R a`, where `a` is its result, and the invariant holds again.
The rules for `Runs` do not look at the conditions a routine tests: what
it holds at a place of its text does not depend on them.

What a logic must allow is listed in four steps, by the changes of the
view that the routines make: those of reading and writing blocks (`Io`),
of putting inodes (`Put`), of getting them (`Get`) and of making new ones
(`Make`). Every routine is gone through once, for any logic that allows
what the routine does.
-/
import LearnLinux.Fs.Calls

namespace LearnLinux.Kernel

open Function (update update_self update_of_ne)
open LearnLinux.Lib
open LearnLinux.InodeTable (Slot NR_SUPER ROOT_INO)

variable {n : Nat} {α β : Type}

-- ======== the view

structure View (n : Nat) where
  ino : Slot → MInode
  mnt : Fin NR_SUPER → Mnt
  cnt : Fin n → UInt8
  rootDev : UInt16
  root : Option Slot
  pwd : Option Slot
  trace : List (Note n)

def Machine.view (s : Machine n) : View n where
  ino := s.ino
  mnt := s.mnt
  cnt b := (s.head b).count
  rootDev := s.rootDev
  root := s.root
  pwd := s.pwd
  trace := s.trace

namespace View

variable (v : View n)

def setIno (j : Slot) (m : MInode) : View n :=
  { v with ino := update v.ino j m }

def setCnt (b : Fin n) (c : UInt8) : View n :=
  { v with cnt := update v.cnt b c }

def note (x : Note n) : View n := { v with trace := x :: v.trace }

def take (j : Slot) : View n :=
  let v' := v.setIno j ((v.ino j).setCount ((v.ino j).count + 1))
  if (v.ino j).count = 65535 then v'.note (.wrapped j) else v'

def drop (j : Slot) : View n :=
  v.setIno j ((v.ino j).setCount ((v.ino j).count - 1))

def setDirt (j : Slot) (d : Bool) : View n :=
  v.setIno j ((v.ino j).setDirt d)

/-- An inode that nobody has used yet, or any more. -/
def wipe (j : Slot) (count : UInt16) : View n :=
  v.setIno j (.blank count)

end View

section views

variable (s : Machine n)

@[simp] theorem view_wipe (j : Slot) (c : UInt16) : (s.wipe j c).view = s.view.wipe j c := rfl

@[simp] theorem view_take (j : Slot) : (s.take j).view = s.view.take j := by
  unfold Machine.take View.take
  by_cases hc : (s.ino j).count = 65535
  · simp [hc, Machine.view, Machine.note, View.note, Machine.setIno, View.setIno, Machine.head]
  · simp [hc, Machine.view, Machine.setIno, View.setIno, Machine.head]

/-- A change of a head that leaves the count alone. -/
theorem view_setHead (b : Fin n) {f : Buffer.Head → Buffer.Head}
    (hf : ∀ h, (f h).count = h.count) : (s.setHead b f).view = s.view := by
  have hc : (s.setHead b f).view.cnt = s.view.cnt := by
    funext b'
    by_cases hb : b' = b
    · subst hb
      simp [Machine.view, Machine.head, Machine.setHead, Buffer.Cache.setHead, hf]
    · simp [Machine.view, Machine.head, Machine.setHead, Buffer.Cache.setHead, hb]
  calc (s.setHead b f).view = { s.view with cnt := (s.setHead b f).view.cnt } := rfl
    _ = s.view := by rw [hc]

/-- The cache with one count changed. -/
theorem view_cache {c : Buffer.Cache n} {b : Fin n} {k : UInt8} (hb : (c.head b).count = k)
    (ho : ∀ b', b' ≠ b → (c.head b').count = (s.head b').count) :
    ({ s with cache := c }).view = s.view.setCnt b k := by
  have hc : (fun b' => (c.head b').count) = update s.view.cnt b k := by
    funext b'
    by_cases h : b' = b
    · subst h
      rw [update_self, hb]
    · rw [update_of_ne h, ho b' h]
      rfl
  unfold View.setCnt
  rw [← hc]
  rfl

theorem view_inc (b : Fin n) : ({ s with cache := s.cache.inc b }).view
      = s.view.setCnt b (s.view.cnt b + 1) := by
  apply view_cache
  · simp [Buffer.Cache.inc, Buffer.Cache.setHead, Machine.view, Machine.head]
  · intro b' h
    simp [Buffer.Cache.inc, Buffer.Cache.setHead, Machine.head, h]

theorem view_dec (b : Fin n) : ({ s with cache := s.cache.dec b }).view
      = s.view.setCnt b (s.view.cnt b - 1) := by
  apply view_cache
  · simp [Buffer.Cache.dec, Buffer.Cache.setHead, Machine.view, Machine.head]
  · intro b' h
    simp [Buffer.Cache.dec, Buffer.Cache.setHead, Machine.head, h]

end views

-- ======== references

/-- A reference that a call holds: to an inode, to an inode that
`get_empty_inode` returned and that has no number yet, to a buffer. -/
inductive Ref (n : Nat) where
  | ino (j : Slot)
  | blank (j : Slot)
  | buf (b : Fin n)
  deriving DecidableEq

abbrev Holdings (n : Nat) := Multiset (Ref n)

/-- The references to the inode in a slot. -/
def refsTo (h : Holdings n) (j : Slot) : Nat :=
  h.count (.ino j) + h.count (.blank j)

variable {h : Holdings n}

theorem refsTo_ino (j k : Slot) :
    refsTo (.ino j ::ₘ h) k = refsTo h k + if k = j then 1 else 0 := by
  unfold refsTo
  simp [Multiset.count_cons]
  omega

theorem refsTo_blank (j k : Slot) :
    refsTo (.blank j ::ₘ h) k = refsTo h k + if k = j then 1 else 0 := by
  unfold refsTo
  simp [Multiset.count_cons]
  omega

theorem refsTo_buf (b : Fin n) (k : Slot) : refsTo (.buf b ::ₘ h) k = refsTo h k := by
  unfold refsTo
  simp

structure Logic (n : Nat) where
  inv : Holdings n → View n → Prop
  err : Halt → View n → Prop

/-- The routine, started in a state, as far as the logic goes. -/
abbrev Logic.Wp (L : Logic n) (x : K n α) (Q : α → Machine n → Prop) (s : Machine n) : Prop :=
  Lib.Wp (fun e s => L.err e s.view) x Q s

/-- The routine takes the references `h` to `R a`. -/
def Logic.Runs (L : Logic n) (h : Holdings n) (x : K n α) (R : α → Holdings n) : Prop :=
  ∀ s, L.inv h s.view → L.Wp x (fun a s' => L.inv (R a) s'.view) s

variable {L : Logic n} {h' : Holdings n} {x : K n α} {R : α → Holdings n} {v v' : View n}

namespace Logic.Runs

theorem ret {a : α} (ha : R a = h) : L.Runs h (pure a) R := by
  intro s hs
  change L.inv (R a) s.view
  rw [ha]
  exact hs

variable {R' : β → Holdings n}

theorem andThen {f : α → K n β} (hx : L.Runs h x R)
    (hf : ∀ a, L.Runs (R a) (f a) R') : L.Runs h (x >>= f) R' := by
  intro s hs
  refine wp_bind.mpr ((hx s hs).imp fun a s' hs' => ?_)
  exact hf a s' hs'

/-- A routine with no result. -/
theorem seq {x : K n PUnit} {f : PUnit → K n β}
    (hx : L.Runs h x fun _ => h') (hf : L.Runs h' (f ⟨⟩) R') : L.Runs h (x >>= f) R' :=
  andThen hx fun _ => hf

/-- What a routine does last, before it returns. -/
theorem last {x : K n PUnit} {b : β} (hx : L.Runs h x fun _ => R' b) :
    L.Runs h (x >>= fun _ => pure b) R' :=
  seq hx (ret rfl)

/-- A result that may be missing. -/
theorem orNone {x : K n (Option α)} {R : Option α → Holdings n} {f : Option α → K n β}
    (hx : L.Runs h x R) (hn : L.Runs (R none) (f none) R')
    (hs : ∀ a, L.Runs (R (some a)) (f (some a)) R') : L.Runs h (x >>= f) R' := by
  apply andThen hx
  intro r
  cases r with
  | none => exact hn
  | some a => exact hs a

theorem look {f : Machine n → K n α} (hf : ∀ s, L.Runs h (f s) R) : L.Runs h (get >>= f) R := by
  intro s hs
  refine wp_bind.mpr ?_
  exact hf s s hs

variable {f : Machine n → Machine n}

theorem change (hf : ∀ s : Machine n, L.inv h s.view → L.inv h' (f s).view) :
    L.Runs h (modify f) fun _ => h' := by
  intro s hs
  exact hf s hs

/-- A change that the view does not show. -/
theorem same (hf : ∀ s : Machine n, (f s).view = s.view) : L.Runs h (modify f) fun _ => h := by
  apply change
  intro s hs
  rw [hf]
  exact hs

theorem stop {e : Halt} (he : ∀ v, L.inv h v → L.err e v) : L.Runs h (throw e : K n α) R := by
  intro s hs
  exact he s.view hs

theorem both {c : Prop} [Decidable c] {y : K n α} (hx : L.Runs h x R)
    (hy : L.Runs h y R) : L.Runs h (if c then x else y) R := by
  by_cases hc : c
  · rw [if_pos hc]
    exact hx
  · rw [if_neg hc]
    exact hy

/-- A loop that ends as it began. -/
theorem each {f : β → K n PUnit} (hf : ∀ a, L.Runs h (f a) fun _ => h)
    (l : List β) : L.Runs h (l.forM f) fun _ => h := by
  intro s hs
  exact wp_forM (fun a s hs => hf a s hs) l hs

theorem upTo {f : Nat → K n PUnit} (hf : ∀ i, L.Runs h (f i) fun _ => h)
    (m i : Nat) : L.Runs h (forUp f m i) fun _ => h := by
  intro s hs
  exact wp_forUp (fun i s hs => hf i s hs) m i hs

variable {r r' : Ref n}

/-- The second reference is the one to look at. -/
theorem swap (hx : L.Runs (r' ::ₘ r ::ₘ h) x R) : L.Runs (r ::ₘ r' ::ₘ h) x R := by
  rw [Multiset.cons_swap]
  exact hx

/-- The third reference is the one to look at. -/
theorem rot {t : Ref n} (hx : L.Runs (t ::ₘ r ::ₘ r' ::ₘ h) x R) :
    L.Runs (r ::ₘ r' ::ₘ t ::ₘ h) x R := by
  rw [Multiset.cons_swap r' t, Multiset.cons_swap r t]
  exact hx

end Logic.Runs

-- ======== what is allowed

/-- Where `i_count++` finds an inode that is in use: by its device, as a
directory of the task or of a mounted device, or as the root of one. -/
def View.Known (v : View n) (j : Slot) : Prop :=
  (v.ino j).dev ≠ 0 ∨ v.root = some j ∨ v.pwd = some j ∨ (∃ i, (v.mnt i).imount = some j) ∨
    ∃ i k, (v.mnt i).imount = some k ∧ (v.mnt i).dev = (v.ino j).dev

/-- What reading and writing blocks does to the view. -/
structure Logic.Io (L : Logic n) : Prop where
  err : ∀ {e v}, e ≠ .restarts → e ≠ .panic .writeInodeDev → L.err e v
  getBuf : ∀ {h v b}, L.inv h v → L.inv (.buf b ::ₘ h) (v.setCnt b (v.cnt b + 1))
  putBuf : ∀ {h v b}, L.inv (.buf b ::ₘ h) v → v.cnt b ≠ 0 → L.inv h (v.setCnt b (v.cnt b - 1))
  clean : ∀ {h v j}, L.inv h v → L.inv h (v.setDirt j false)
  dirty : ∀ {h v j}, L.inv h v → .ino j ∈ h → L.inv h (v.setDirt j true)
  busy : ∀ {h v b}, L.inv (.buf b ::ₘ h) v → L.inv h (v.note (.busy b))
  badDirectory : ∀ {h v b}, L.inv (.buf b ::ₘ h) v → L.inv h (v.note (.badDirectory b))
  hole : ∀ {h v b}, L.inv h v → L.inv (.buf b ::ₘ h) (v.note (.hole b))
  writeInodeDev : ∀ {h v j}, L.inv h v → (v.ino j).dirt = true →
    (v.ino j).dev ≠ 0 → superOf v.mnt (v.ino j).dev = none → L.err (.panic .writeInodeDev) v

/-- What `iput` does. -/
structure Logic.Put (L : Logic n) : Prop extends L.Io where
  drop : ∀ {h v j}, L.inv (.ino j ::ₘ h) v → (v.ino j).count ≠ 0 →
    (1 < (v.ino j).count ∨ (v.ino j).dirt = false ∨ (v.ino j).dev = 0 ∧ (v.ino j).pipe = false) →
    L.inv h (v.drop j)
  unpipe : ∀ {h v j}, L.inv (.ino j ::ₘ h) v → (v.ino j).count = 1 →
    (v.ino j).pipe = true → L.inv h (v.setIno j (v.ino j).unpipe)
  wipe : ∀ {h v j}, L.inv (.ino j ::ₘ h) v → (v.ino j).count = 1 → L.inv h (v.wipe j 0)

/-- What `iget` does. -/
structure Logic.Get (L : Logic n) : Prop extends L.Put where
  take : ∀ {h v j}, L.inv h v → v.Known j → L.inv (.ino j ::ₘ h) (v.take j)
  empty : ∀ {h v j}, L.inv h v → (v.ino j).count = 0 → L.inv (.blank j ::ₘ h) (v.wipe j 1)
  unblank : ∀ {h v e}, L.inv (.blank e ::ₘ h) v → v.ino e = .blank 1 → L.inv h (v.drop e)
  name : ∀ {h v e dev nr}, L.inv (.blank e ::ₘ h) v →
    v.ino e = .blank 1 → (∀ k, ¬ ((v.ino k).dev = dev ∧ (v.ino k).num = nr)) →
    superOf v.mnt dev ≠ none → L.inv (.ino e ::ₘ h) (v.setIno e ((v.ino e).setName dev nr))
  noSb : ∀ {h v k}, L.inv h v → (v.ino k).mount = true →
    (∀ i, (v.mnt i).imount ≠ some k) → L.inv h (v.note (.noSb k))
  restarts : ∀ {h v k}, L.inv h v → (v.ino k).mount = true →
    (v.ino k).num = ROOT_INO → L.err .restarts v

/-- What `new_inode` does. -/
structure Logic.Make (L : Logic n) : Prop extends L.Get where
  make : ∀ {h v e dev nr}, L.inv (.blank e ::ₘ h) v →
    v.ino e = .blank 1 → superOf v.mnt dev ≠ none →
    L.inv (.ino e ::ₘ h) (v.setIno e ⟨dev, nr, 1, true, false, false⟩)

-- ======== frames

/-- A logic that only remembers something of the view that no routine of
its class changes. -/
def frame (P : View n → Prop) : Logic n where
  inv _ v := P v
  err _ _ := True

/-- Reading and writing blocks changes neither the mount table nor an
inode, its dirty bit apart. -/
def View.SameBut (v v' : View n) : Prop :=
  v'.mnt = v.mnt ∧ ∀ j, (v'.ino j).setDirt false = (v.ino j).setDirt false

theorem View.SameBut.refl (v : View n) : v.SameBut v := ⟨rfl, fun _ => rfl⟩

theorem View.SameBut.setDirt (hv : v.SameBut v') (j : Slot)
    (d : Bool) : v.SameBut (v'.setDirt j d) := by
  refine ⟨hv.1, fun k => ?_⟩
  rw [← hv.2 k]
  by_cases hk : k = j
  · subst hk
    simp [View.setDirt, View.setIno, MInode.setDirt]
  · simp [View.setDirt, View.setIno, hk]

theorem View.SameBut.count (hv : v.SameBut v') (j : Slot) : (v'.ino j).count = (v.ino j).count := by
  have hm := congrArg MInode.count (hv.2 j)
  exact hm

theorem frame_io : (frame v.SameBut).Io where
  err _ _ := trivial
  getBuf hv := hv
  putBuf hv _ := hv
  clean hv := hv.setDirt _ _
  dirty hv _ := hv.setDirt _ _
  busy hv := hv
  badDirectory hv := hv
  hole hv := hv
  writeInodeDev _ _ _ _ := trivial

/-- Putting an inode does not change the mount table. -/
theorem frame_put (m : Fin NR_SUPER → Mnt) : (frame fun v : View n => v.mnt = m).Put where
  err _ _ := trivial
  getBuf hv := hv
  putBuf hv _ := hv
  clean hv := hv
  dirty hv _ := hv
  busy hv := hv
  badDirectory hv := hv
  hole hv := hv
  writeInodeDev _ _ _ _ := trivial
  drop hv _ _ := hv
  unpipe hv _ _ := hv
  wipe hv _ := hv

/-- A slot that `get_empty_inode` has returned stays blank while the
inodes in other slots are put. -/
def aside (e : Slot) (m : Fin NR_SUPER → Mnt) : Logic n where
  inv h v := .ino e ∉ h ∧ v.ino e = .blank 1 ∧ v.mnt = m
  err _ _ := True

theorem aside_setIno {e j : Slot} {m : Fin NR_SUPER → Mnt} {h : Holdings n}
    (hv : (aside e m).inv (.ino j ::ₘ h) v) (i : MInode) : (aside e m).inv h (v.setIno j i) := by
  obtain ⟨he, hb, hm⟩ := hv
  rw [Multiset.mem_cons, not_or] at he
  have hj : e ≠ j := fun h => he.1 (by rw [h])
  refine ⟨he.2, ?_, hm⟩
  simp [View.setIno, hj, hb]

theorem aside_put (e : Slot) (m : Fin NR_SUPER → Mnt) : (aside (n := n) e m).Put where
  err _ _ := trivial
  getBuf hv := ⟨by simp [hv.1], hv.2⟩
  putBuf hv _ := ⟨fun h => hv.1 (Multiset.mem_cons_of_mem h), hv.2⟩
  clean := by
    intro h v j hv
    refine ⟨hv.1, ?_, hv.2.2⟩
    by_cases hj : e = j
    · subst hj
      simp [View.setDirt, View.setIno, hv.2.1, MInode.setDirt, MInode.blank]
    · simp [View.setDirt, View.setIno, hj, hv.2.1]
  dirty := by
    intro h v j hv hm
    have hj : e ≠ j := fun h => hv.1 (h ▸ hm)
    refine ⟨hv.1, ?_, hv.2.2⟩
    simp [View.setDirt, View.setIno, hj, hv.2.1]
  busy hv := ⟨fun h => hv.1 (Multiset.mem_cons_of_mem h), hv.2⟩
  badDirectory hv := ⟨fun h => hv.1 (Multiset.mem_cons_of_mem h), hv.2⟩
  hole hv := ⟨by simp [hv.1], hv.2⟩
  writeInodeDev _ _ _ _ := trivial
  drop hv _ _ := aside_setIno hv _
  unpipe hv _ _ := aside_setIno hv _
  wipe hv _ := aside_setIno hv _

/-- What runs in two logics, runs in both at once. -/
theorem Logic.Runs.with {L' : Logic n} {k : Holdings n}
    {R' : α → Holdings n} (hx : L.Runs h x R) (hx' : L'.Runs k x R')
    {s : Machine n} (hs : L.inv h s.view) (hs' : L'.inv k s.view) :
    L.Wp x (fun a s' => L.inv (R a) s'.view ∧ L'.inv (R' a) s'.view) s :=
  (hx s hs).and (hx' s hs')

end LearnLinux.Kernel
