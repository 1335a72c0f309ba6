/-
Block requests are conserved.

That a buffer has a request under way is recorded three times: the buffer
is locked, the slot has a device, and the slot is on the queue of a device.
`Lists` ties the second record to the third, and `Owned` the first to the
second: each locked buffer is locked by one slot, or by one task that is
looking for a slot. A call of `make_request` takes the lock for its task,
hands it to the slot, and `end_request` gives it back.
-/
import LearnLinux.Drivers.Request

namespace LearnLinux.Blk

open Function (update update_self update_of_ne update_idem update_eq_self)
open Lib (Walk Owned length_le_of_lt runOps exists_run runOps_invariant_all)

variable {β τ : Type}

/-- The slot `r` holds a request. -/
def Used (k : Kernel β) (r : Nat) : Prop :=
  r < NR_REQUEST ∧ 0 ≤ (k.request r).dev

instance (k : Kernel β) (r : Nat) : Decidable (Used k r) :=
  inferInstanceAs (Decidable (_ ∧ _))

/-- The slots in `l` are the queue of the device, from its current request
on. -/
def IsQueue (k : Kernel β) (dev : Fin NR_BLK_DEV) (l : List Nat) : Prop :=
  Walk (fun r => (k.request r).next) (k.currentRequest dev) l NULL

/-- Everybody who can have a buffer locked. -/
inductive Holder (τ : Type) where
  | slot (r : Nat)
  | task (t : τ)
  deriving DecidableEq

/-- The buffer a task has locked where it is. -/
def Place.held : Place β → Option β
  | .waiting _ _ b => some b
  | _ => none

/-- The buffer that a slot or a task has locked. -/
def holds (s : System β τ) : Holder τ → Option β
  | .slot r => if Used s.kernel r then (s.kernel.request r).bh else none
  | .task t => (s.place t).held

def locks (k : Kernel β) (b : β) : Bool := (k.buf b).lock

/-- The numbers of the requests: each is that of a completed request or of
one on a queue, and of one only. -/
structure Ledger (s : System β τ) (q : Fin NR_BLK_DEV → List Nat) : Prop where
  all : ∀ n, n < s.accepted ↔ n ∈ s.completed ∨ ∃ dev, ∃ r ∈ q dev, s.number r = n
  completed_once : s.completed.Nodup
  queued_once : ∀ {dev dev' r r'}, r ∈ q dev → r' ∈ q dev' → s.number r = s.number r' → r = r'
  not_both : ∀ {dev r}, r ∈ q dev → s.number r ∉ s.completed

/-- The slots and the queues agree. -/
structure Lists (s : System β τ) (q : Fin NR_BLK_DEV → List Nat) : Prop where
  queue : ∀ dev, IsQueue s.kernel dev (q dev)
  once : ∀ dev, (q dev).Nodup
  apart : ∀ {dev dev' r}, r ∈ q dev → r ∈ q dev' → dev = dev'
  used : ∀ {dev r}, r ∈ q dev → Used s.kernel r
  filled : ∀ {dev r}, s.filled = some (dev, r) → Used s.kernel r ∧ ∀ d, r ∉ q d
  all : ∀ {r}, Used s.kernel r → (∃ dev, r ∈ q dev) ∨ ∃ dev, s.filled = some (dev, r)
  full : ∀ {r}, Used s.kernel r → ∃ b, (s.kernel.request r).bh = some b
  low : ∀ {r}, Used s.kernel r → (s.kernel.request r).cmd = .WRITE → r < NR_REQUEST * 2 / 3
  ledger : Ledger s q

variable {s s' : System β τ} {q q' : Fin NR_BLK_DEV → List Nat} {t : τ} {f : Nat → Request β}
variable {x req : Nat}
  {b : β} {major dev : Fin NR_BLK_DEV} {rw : Cmd} {r : Nat} {k : Kernel β}
variable {n : Nat}

/-- The slots and queues do not depend on the buffers and the tasks. -/
theorem Lists.congr (h : Lists s q) (hr : s'.kernel.request = s.kernel.request)
    (hc : s'.kernel.currentRequest = s.kernel.currentRequest)
    (hf : s'.filled = s.filled) (ha : s'.accepted = s.accepted)
    (hn : s'.number = s.number) (hd : s'.completed = s.completed) : Lists s' q := by
  have hu : ∀ {r}, Used s'.kernel r ↔ Used s.kernel r := by
    intro r
    simp only [Used, hr]
  refine ⟨fun d => ?_, h.once, h.apart, fun hm => hu.mpr (h.used hm),
    fun hm => ?_, fun hm => ?_, fun hm => ?_, fun hm hw => ?_, ?_⟩
  · simpa only [IsQueue, hr, hc] using h.queue d
  · rw [hf] at hm
    rw [hu]
    exact h.filled hm
  · rw [hf]
    exact h.all (hu.mp hm)
  · rw [hr]
    exact h.full (hu.mp hm)
  · rw [hr] at hw
    exact h.low (hu.mp hm) hw
  · refine ⟨?_, ?_, fun h1 h2 => ?_, fun h1 => ?_⟩
    · rw [ha, hd, hn]
      exact h.ledger.all
    · rw [hd]
      exact h.ledger.completed_once
    · rw [hn]
      exact h.ledger.queued_once h1 h2
    · rw [hn, hd]
      exact h.ledger.not_both h1

-- ======== the links

/-- Nothing but links has changed. -/
def Relinked (f f' : Nat → Request β) : Prop :=
  ∀ x, f' x = { f x with next := (f' x).next }

theorem relinked_setNext : Relinked f (setNext f r n) := by
  intro x
  rcases eq_or_ne x r with rfl | hx
  · simp [setNext]
  · simp [setNext, hx]

theorem Relinked.trans {f' f'' : Nat → Request β} (h : Relinked f f')
    (h' : Relinked f' f'') : Relinked f f'' := by
  intro x
  rw [h' x, h x]

theorem next_setNext_self : (setNext f r n r).next = n := by
  simp [setNext]

theorem next_setNext_of_ne {r : Nat} (h : x ≠ r) : (setNext f r n x).next = (f x).next := by
  simp [setNext, h]

/-- The loop of `add_request` ends on a request of the queue. -/
theorem findPlace_spec :
    ∀ {l : List Nat} {p n : Nat}, Walk (fun r => (f r).next) p l NULL → l ≠ [] → l.length ≤ n →
      ∃ l1 c l2, l = l1 ++ c :: l2 ∧ findPlace f req n p = some c := by
  intro l
  induction l with
  | nil => exact fun _ h => absurd rfl h
  | cons x l ih =>
    intro p n hw _ hn
    obtain ⟨rfl, hw⟩ := hw
    cases n with
    | zero => exact absurd hn (by simp)
    | succ n =>
      rw [findPlace]
      split
      · exact ⟨[], p, l, rfl, rfl⟩
      · rename_i hend
        split
        · exact ⟨[], p, l, rfl, rfl⟩
        · have hl : l ≠ [] := by
            rintro rfl
            exact hend hw
          obtain ⟨l1, c, l2, hl', hf⟩ :=
            ih hw hl (Nat.le_of_succ_le_succ hn)
          exact ⟨p :: l1, c, l2, by rw [hl', List.cons_append], hf⟩

theorem Relinked.used (h : Relinked s.kernel.request k.request) : Used k x ↔ Used s.kernel x := by
  rw [Used, Used, h x]

/-- Links are not what a slot holds a buffer with. -/
theorem Relinked.holds_slot (h : Relinked s.kernel.request s'.kernel.request) :
    holds s' (.slot x) = holds s (.slot x) := by
  have hb : (s'.kernel.request x).bh = (s.kernel.request x).bh := by
    rw [h x]
  simp only [holds, h.used, hb]

/-- Only the slots and the places of the tasks matter. -/
theorem Relinked.holds (h : Relinked s.kernel.request s'.kernel.request)
    (hp : s'.place = s.place) : holds s' = holds s := by
  funext x
  cases x with
  | slot x => exact h.holds_slot
  | task t => simp only [Blk.holds, hp]

-- ======== the numbers

/-- The filled slot goes on the queue of its device, and the request gets
the next number. -/
theorem Ledger.add
    (h : Ledger s q) (hoff : ∀ d, req ∉ q d) (hq' : ∀ d x, x ∈ q' d ↔ d = dev ∧ x = req ∨ x ∈ q d) :
    Ledger { s with
      kernel := k, filled := none, accepted := s.accepted + 1,
      number := update s.number req s.accepted } q' := by
  have hold : ∀ {d x}, x ∈ q d → update s.number req s.accepted x = s.number x := by
    intro d x hx
    refine update_of_ne ?_ ..
    rintro rfl
    exact hoff d hx
  have hnew : update s.number req s.accepted req = s.accepted :=
    update_self ..
  have hlt : ∀ {d x}, x ∈ q d → s.number x < s.accepted :=
    fun {d x} hx => (h.all _).mpr (.inr ⟨d, x, hx, rfl⟩)
  refine ⟨fun n => ?_, h.completed_once, fun {d d' x x'} hx hx' => ?_, fun {d x} hx => ?_⟩
  · rw [Nat.lt_succ_iff_lt_or_eq, h.all n, or_assoc]
    refine or_congr_right ?_
    constructor
    · rintro (⟨d, x, hx, hn⟩ | rfl)
      · exact ⟨d, x, (hq' d x).mpr (.inr hx), (hold hx).trans hn⟩
      · exact ⟨dev, req, (hq' dev req).mpr (.inl ⟨rfl, rfl⟩), hnew⟩
    · rintro ⟨d, x, hx, hn⟩
      rcases (hq' d x).mp hx with ⟨-, rfl⟩ | hx
      · exact .inr (hn.symm.trans hnew)
      · exact .inl ⟨d, x, hx, (hold hx).symm.trans hn⟩
  · intro hn
    dsimp only at hn
    rcases (hq' d x).mp hx with ⟨-, hxr⟩ | hx <;> rcases (hq' d' x').mp hx' with ⟨-, hxr'⟩ | hx'
    · rw [hxr, hxr']
    · rw [hxr, hnew, hold hx'] at hn
      exact absurd (hlt hx') (by omega)
    · rw [hxr', hnew, hold hx] at hn
      exact absurd (hlt hx) (by omega)
    · rw [hold hx, hold hx'] at hn
      exact h.queued_once hx hx' hn
  · dsimp only
    rcases (hq' d x).mp hx with ⟨-, rfl⟩ | hx
    · rw [hnew]
      intro hm
      exact absurd ((h.all _).mpr (.inl hm)) (Nat.lt_irrefl _)
    · rw [hold hx]
      exact h.not_both hx

/-- The number of the ended request is moved to the completed ones. -/
theorem Ledger.complete (h : Ledger s q) (hr : r ∈ q dev)
    (hq' : ∀ d x, x ∈ q' d ↔ x ∈ q d ∧ x ≠ r) :
    Ledger { s with
      kernel := k, completed := s.completed ++ [s.number r] } q' := by
  refine ⟨fun n => ?_, ?_, fun {d d' x x'} hx hx' => ?_, fun {d x} hx => ?_⟩
  · rw [h.all n]
    rw [List.mem_append, List.mem_singleton, or_assoc]
    refine or_congr_right ?_
    constructor
    · rintro ⟨d, x, hx, hn⟩
      rcases eq_or_ne x r with rfl | hxr
      · exact .inl hn.symm
      · exact .inr ⟨d, x, (hq' d x).mpr ⟨hx, hxr⟩, hn⟩
    · rintro (hn | ⟨d, x, hx, hn⟩)
      · exact ⟨dev, r, hr, hn.symm⟩
      · exact ⟨d, x, ((hq' d x).mp hx).1, hn⟩
  · rw [List.nodup_append]
    refine ⟨h.completed_once, List.nodup_singleton _, fun n hn m hm => ?_⟩
    rw [List.mem_singleton.mp hm]
    rintro rfl
    exact h.not_both hr hn
  · exact h.queued_once ((hq' d x).mp hx).1 ((hq' d' x').mp hx').1
  · obtain ⟨hx, hxr⟩ := (hq' d x).mp hx
    rw [List.mem_append, List.mem_singleton, not_or]
    exact ⟨h.not_both hx, fun hn => hxr (h.queued_once hx hr hn)⟩

-- ======== a slot is filled

theorem emptyRequest_spec (h : emptyRequest k rw = some r) :
    r < slots rw ∧ (k.request r).dev < 0 := by
  have hm := List.mem_of_find?_eq_some h
  have hd := List.find?_some h
  rw [List.mem_reverse, List.mem_range] at hm
  exact ⟨hm, of_decide_eq_true hd⟩

theorem slots_le (rw : Cmd) : slots rw ≤ NR_REQUEST := by
  cases rw with
  | READ => exact Nat.le_refl _
  | WRITE => decide

theorem used_fill (hr : r < NR_REQUEST) : Used (fill k r rw b) x ↔ x = r ∨ Used k x := by
  rcases eq_or_ne x r with rfl | hx
  · refine iff_of_true ⟨hr, ?_⟩ (.inl rfl)
    simp [fill]
  · simp [Used, fill, hx]

variable [DecidableEq τ] {p : Place β}

/-- A slot off the queues is filled: it is the one to be added next. -/
theorem Lists.fill (h : Lists s q) (hf : s.filled = none) (he : emptyRequest s.kernel rw = some r) :
    Lists { s with
      kernel := fill s.kernel r rw b,
      place := update s.place t .idle,
      filled := some (major, r) } q := by
  obtain ⟨hlt, hneg⟩ := emptyRequest_spec he
  have hr : r < NR_REQUEST := Nat.lt_of_lt_of_le hlt (slots_le rw)
  have hu : ¬Used s.kernel r := fun hu => absurd hu.2 (Int.not_le.mpr hneg)
  have hoff : ∀ d, r ∉ q d := fun d hm => hu (h.used hm)
  have hsame : ∀ {x}, x ≠ r → (Blk.fill s.kernel r rw b).request x = s.kernel.request x :=
    fun hx => update_of_ne hx ..
  refine ⟨fun d => ?_, h.once, h.apart,
    fun hm => (used_fill hr).mpr (.inr (h.used hm)), fun hm => ?_,
    fun hm => ?_, fun hm => ?_, fun hm hw => ?_,
    ⟨h.ledger.all, h.ledger.completed_once, h.ledger.queued_once, h.ledger.not_both⟩⟩
  · refine (h.queue d).congr fun x hx => ?_
    have hne : x ≠ r := by
      rintro rfl
      exact hoff d hx
    exact congrArg Request.next (hsame hne)
  · cases hm
    exact ⟨(used_fill hr).mpr (.inl rfl), hoff⟩
  · rcases (used_fill hr).mp hm with rfl | hm
    · exact .inr ⟨major, rfl⟩
    · rcases h.all hm with hq | ⟨d, hd⟩
      · exact .inl hq
      · rw [hf] at hd
        cases hd
  · rename_i x
    rcases eq_or_ne x r with rfl | hx
    · exact ⟨b, by simp [Blk.fill]⟩
    · obtain ⟨b', hb'⟩ := h.full (((used_fill hr).mp hm).resolve_left hx)
      exact ⟨b', (congrArg Request.bh (hsame hx)).trans hb'⟩
  · rename_i x
    rcases eq_or_ne x r with rfl | hx
    · have hw' : rw = .WRITE := by simpa [Blk.fill] using hw
      rw [hw'] at hlt
      exact hlt
    · exact h.low (((used_fill hr).mp hm).resolve_left hx)
        ((congrArg Request.cmd (hsame hx)).symm.trans hw)

/-- What a task holds is seen from where it is. -/
theorem holds_place (hr : s'.kernel.request = s.kernel.request)
    (hp : s'.place = update s.place t p) : holds s' = update (holds s) (.task t) p.held := by
  funext h
  cases h with
  | slot r =>
    rw [update_of_ne (by simp)]
    exact Relinked.holds_slot (fun x => by rw [hr])
  | task t' =>
    rcases eq_or_ne t' t with rfl | ht
    · simp [holds, hp]
    · simp [holds, hp, ht]

/-- The slot holds the buffer that its task held. -/
theorem holds_fill (hr : r < NR_REQUEST) : holds { s with
      kernel := fill s.kernel r rw b,
      place := update s.place t .idle,
      filled := some (major, r) }
    = update (update (holds s) (.task t) none) (.slot r) (some b) := by
  funext h
  cases h with
  | slot x =>
    rcases eq_or_ne x r with rfl | hx
    · have hu : Used (fill s.kernel x rw b) x :=
        (used_fill hr).mpr (.inl rfl)
      rw [update_self, holds, if_pos hu]
      simp [fill]
    · have hu : Used (fill s.kernel r rw b) x ↔ Used s.kernel x := by
        rw [used_fill hr]
        exact or_iff_right hx
      rw [update_of_ne (by simpa using hx), update_of_ne (by simp), holds, holds]
      simp only [hu]
      simp [fill, hx]
  | task t' =>
    rcases eq_or_ne t' t with rfl | ht
    · rw [update_of_ne (by simp), update_self]
      simp [holds, Place.held]
    · rw [update_of_ne (by simp), update_of_ne (by simpa using ht)]
      simp [holds, ht]

/-- The invariant: the lists, and an owner behind each lock. -/
structure Inv (s : System β τ) (q : Fin NR_BLK_DEV → List Nat) : Prop where
  lists : Lists s q
  owned : Owned (locks s.kernel) (holds s)

/-- A task moves on, and the slots stay as they are. -/
theorem Lists.move (h : Lists s q) (hr : k.request = s.kernel.request)
    (hc : k.currentRequest = s.kernel.currentRequest)
    (ho : Owned (locks k) (update (holds s) (.task t) p.held)) :
    Inv { s with kernel := k, place := update s.place t p } q := by
  refine ⟨h.congr hr hc rfl rfl rfl rfl, ?_⟩
  have hh : holds { s with
      kernel := k, place := update s.place t p }
      = update (holds s) (.task t) p.held := holds_place hr rfl
  rw [hh]
  exact ho

variable [DecidableEq β]

-- ======== the buffers

@[simp] theorem locks_setLock (v : Bool) : locks (setLock k b v) = update (locks k) b v := by
  funext b'
  rcases eq_or_ne b' b with rfl | hb
  · simp [locks, setLock]
  · simp [locks, setLock, hb]

@[simp] theorem locks_cleanBuffer (o : Option β) : (cleanBuffer k o b).lock = locks k b := by
  cases o with
  | none => rfl
  | some b' =>
    rcases eq_or_ne b b' with rfl | hb
    · simp [locks, cleanBuffer]
    · simp [locks, cleanBuffer, hb]

/-- The search for a slot, by a task that has locked the buffer: it hands
it to the slot, gives it up, or keeps it asleep. -/
theorem inv_takeSlot (h : Lists s q) (hf : s.filled = none) (ho : Owned (locks s.kernel)
      (update (holds s) (.task t) (some b))) (ahead : Bool) :
    Inv (takeSlot s t major rw ahead b) q := by
  unfold takeSlot
  split
  · rename_i r he
    obtain ⟨hlt, hneg⟩ := emptyRequest_spec he
    have hr : r < NR_REQUEST := Nat.lt_of_lt_of_le hlt (slots_le rw)
    refine ⟨h.fill hf he, ?_⟩
    have hn : ¬Used s.kernel r := fun hu => absurd hu.2 (Int.not_le.mpr hneg)
    have hfree : update (holds s) (.task t) (some b) (.slot r) = none := by
      rw [update_of_ne (by simp), holds, if_neg hn]
    have hand := ho.hand (update_self ..) hfree
    rw [update_idem] at hand
    rw [holds_fill hr]
    exact hand
  · split
    · refine h.move rfl rfl ?_
      have hd := ho.drop (update_self ..)
      rw [update_idem] at hd
      rw [locks_setLock]
      exact hd
    · exact h.move rfl rfl ho

/-- A task that has no buffer locked gets to `lock_buffer`. -/
theorem Inv.lockBuffer (h : Inv s q) (hf : s.filled = none)
    (ht : holds s (.task t) = none) (ahead : Bool) : Inv (lockBuffer s t major rw ahead b) q := by
  have hself : update (holds s) (.task t) none = holds s := by
    rw [← ht, update_eq_self]
  have ho := h.owned
  rw [← hself] at ho
  unfold Blk.lockBuffer
  split
  · exact h.lists.move rfl rfl ho
  · rename_i hl
    have hl' : locks s.kernel b = false := Bool.eq_false_iff.mpr hl
    split
    · refine h.lists.move rfl rfl ?_
      rw [locks_setLock, locks_setLock, update_idem, ← hl', update_eq_self]
      exact ho
    · refine inv_takeSlot (s := { s with kernel := setLock s.kernel b true })
        (h.lists.congr rfl rfl rfl rfl rfl rfl) hf ?_ ahead
      have hh : holds { s with kernel := setLock s.kernel b true } = holds s :=
        Relinked.holds (fun _ => rfl) rfl
      rw [locks_setLock, hh]
      exact h.owned.take hl' ht

theorem Inv.makeRequest (h : Inv s q) (hf : s.filled = none)
    (ht : holds s (.task t) = none) (rw : Rw) : Inv (makeRequest s t major rw b) q := by
  cases rw with
  | READ | WRITE => exact h.lockBuffer hf ht false
  | READA | WRITEA =>
    unfold Blk.makeRequest
    dsimp only
    split
    · exact h
    · exact h.lockBuffer hf ht true

theorem Inv.resume (h : Inv s q) (hf : s.filled = none) (hs : resume s t = some s') : Inv s' q := by
  unfold Blk.resume at hs
  split at hs
  · cases hs
  · rename_i hp
    cases hs
    refine h.lockBuffer hf ?_ _
    rw [holds, hp]
    rfl
  · rename_i b hp
    cases hs
    refine inv_takeSlot h.lists hf ?_ false
    have ht : holds s (.task t) = some b := by
      rw [holds, hp, Place.held]
    rw [← ht, update_eq_self]
    exact h.owned

-- ======== a request is added

/-- `add_request` puts the slot into the queue of its device and touches no
other one. -/
theorem addRequest_spec {l : List Nat}
    (h : IsQueue k dev l) (hn : l.Nodup) (hlt : ∀ x ∈ l, x < NR_REQUEST)
    (hreq : req ∉ l) : ∃ k' l1 l2, addRequest k dev req = some k'
      ∧ l = l1 ++ l2 ∧ IsQueue k' dev (l1 ++ req :: l2) ∧ Relinked k.request k'.request
      ∧ (∀ x, x ∉ l → x ≠ req → (k'.request x).next = (k.request x).next)
      ∧ (∀ d, d ≠ dev → k'.currentRequest d = k.currentRequest d) ∧ locks k' = locks k := by
  have hf : ∀ x, x ≠ req → (setNext k.request req NULL x).next = (k.request x).next :=
    fun x hx => next_setNext_of_ne hx
  have hw : Walk (fun r => (setNext k.request req NULL r).next) (k.currentRequest dev) l NULL := by
    refine Walk.congr h fun x hx => hf x ?_
    rintro rfl
    exact hreq hx
  unfold addRequest
  dsimp only
  split
  · rename_i hc
    have hl : l = [] := by
      cases l with
      | nil => rfl
      | cons x l =>
        have hx : k.currentRequest dev = x := h.1
        have := hlt x (List.mem_cons_self ..)
        rw [← hx, hc] at this
        exact absurd this (Nat.lt_irrefl _)
    subst hl
    refine ⟨_, [], [], rfl, rfl, ⟨update_self .., ?_⟩,
      relinked_setNext, fun x _ hx => hf x hx, fun d hd => update_of_ne hd .., funext fun b => ?_⟩
    · exact next_setNext_self ..
    · exact locks_cleanBuffer ..
  · rename_i hc
    have hl : l ≠ [] := by
      rintro rfl
      exact hc h
    -- the queue has no more slots than there are
    have hlen : l.length ≤ NR_REQUEST := length_le_of_lt hn hlt
    obtain ⟨l1, c, l2, rfl, hp⟩ := findPlace_spec hw hl hlen
    rw [hp]
    have hcreq : c ≠ req := by
      rintro rfl
      exact hreq (by simp)
    have hnot : c ∉ l1 ∧ c ∉ l2 := by
      have := (List.nodup_middle.mp hn)
      rw [List.nodup_cons, List.mem_append, not_or] at this
      exact this.1
    refine ⟨_, l1 ++ [c], l2, rfl, by simp, ?_, ?_, fun x hx hxr => ?_,
      fun d _ => rfl, funext fun b => locks_cleanBuffer ..⟩
    · have hother : ∀ x, x ≠ c → x ≠ req → (setNext (setNext (setNext k.request req NULL) req
            (setNext k.request req NULL c).next) c req x).next
          = (setNext k.request req NULL x).next := by
        intro x hx hxr
        rw [next_setNext_of_ne hx, next_setNext_of_ne hxr]
      have hin : ∀ x ∈ l1 ++ c :: l2, x ≠ req := by
        rintro x hx rfl
        exact hreq hx
      have hins : Walk (fun r => (setNext (setNext (setNext k.request req
          NULL) req (setNext k.request req NULL c).next) c req r).next)
          (k.currentRequest dev) (l1 ++ c :: req :: l2) NULL := hw.insert (next_setNext_self ..)
        (by rw [next_setNext_of_ne hcreq.symm, next_setNext_self])
        (fun x hx => hother x (by rintro rfl; exact hnot.1 hx) (hin x (by simp [hx])))
        (fun x hx => hother x (by rintro rfl; exact hnot.2 hx) (hin x (by simp [hx])))
      rw [List.append_assoc]
      exact hins
    · exact (relinked_setNext.trans relinked_setNext).trans relinked_setNext
    · have hxc : x ≠ c := by
        rintro rfl
        exact hx (by simp)
      rw [next_setNext_of_ne hxc, next_setNext_of_ne hxr]
      exact hf x hxr

omit [DecidableEq τ] in
/-- `add_request` succeeds, and the slot it is called with is on the queue
then. -/
theorem Inv.add (h : Inv s q) (hf : s.filled = some (dev, req)) :
    ∃ s' q', add s = some s' ∧ Inv s' q' := by
  obtain ⟨hreq, hoff⟩ := h.lists.filled hf
  obtain ⟨k, l1, l2, hk, hl, hw, hrel, hnext, hcur, hlock⟩ :=
    addRequest_spec (h.lists.queue dev) (h.lists.once dev)
      (fun x hx => (h.lists.used hx).1) (hoff dev)
  have hadd : Blk.add s = some { s with
      kernel := k, filled := none, accepted := s.accepted + 1,
      number := update s.number req s.accepted } := by
    rw [Blk.add, hf, Option.bind_some, hk, Option.map_some]
  have hq' : ∀ d x, x ∈ update q dev (l1 ++ req :: l2) d ↔ d = dev ∧ x = req ∨ x ∈ q d := by
    intro d x
    rcases eq_or_ne d dev with rfl | hd
    · rw [update_self, hl]
      simp only [List.mem_append, List.mem_cons, true_and]
      exact or_left_comm
    · rw [update_of_ne hd]
      exact (or_iff_right fun h => hd h.1).symm
  refine ⟨_, update q dev (l1 ++ req :: l2), hadd, ⟨fun d => ?_,
    fun d => ?_, fun {d d' x} hx hx' => ?_, fun {d x} hx => ?_,
    fun hx => ?_, fun {x} hx => ?_, fun {x} hx => ?_, fun {x} hx hc => ?_,
    h.lists.ledger.add hoff hq'⟩, ?_⟩
  · rcases eq_or_ne d dev with rfl | hd
    · rw [update_self]
      exact hw
    · rw [update_of_ne hd, IsQueue, hcur d hd]
      refine (h.lists.queue d).congr fun x hx => hnext x ?_ ?_
      · exact fun hx' => hd (h.lists.apart hx hx')
      · rintro rfl
        exact hoff d hx
  · rcases eq_or_ne d dev with rfl | hd
    · rw [update_self, List.nodup_middle, List.nodup_cons, ← hl]
      exact ⟨hoff d, h.lists.once d⟩
    · rw [update_of_ne hd]
      exact h.lists.once d
  · rcases (hq' d x).mp hx with ⟨hd, hxr⟩ | hm <;> rcases (hq' d' x).mp hx' with ⟨hd', hxr'⟩ | hm'
    · rw [hd, hd']
    · exact absurd (hxr ▸ hm') (hoff d')
    · exact absurd (hxr' ▸ hm) (hoff d)
    · exact h.lists.apart hm hm'
  · rw [hrel.used]
    rcases (hq' d x).mp hx with ⟨-, rfl⟩ | hx
    · exact hreq
    · exact h.lists.used hx
  · cases hx
  · refine .inl ?_
    rcases h.lists.all (hrel.used.mp hx) with ⟨d, hd⟩ | ⟨d, hd⟩
    · exact ⟨d, (hq' d x).mpr (.inr hd)⟩
    · rw [hf] at hd
      cases hd
      exact ⟨dev, (hq' dev req).mpr (.inl ⟨rfl, rfl⟩)⟩
  · obtain ⟨b, hb⟩ := h.lists.full (hrel.used.mp hx)
    refine ⟨b, ?_⟩
    rw [hrel x]
    exact hb
  · rw [hrel x] at hc
    exact h.lists.low (hrel.used.mp hx) hc
  · have hh : Blk.holds { s with
        kernel := k, filled := none, accepted := s.accepted + 1,
        number := update s.number req s.accepted }
        = Blk.holds s := hrel.holds rfl
    rw [hh]
    rw [hlock]
    exact h.owned

-- ======== a request is ended

/-- The request at the head of the queue is ended: its buffer is unlocked
and its slot is free, and nothing else happens. -/
structure EndsHead (s s' : System β τ) (q q' : Fin NR_BLK_DEV → List Nat)
    (dev : Fin NR_BLK_DEV) (uptodate : Bool) (r : Nat) (b : β) : Prop where
  queue : q dev = r :: q' dev
  others : ∀ d, d ≠ dev → q' d = q d
  bh : (s.kernel.request r).bh = some b
  slots : s'.kernel.request = update s.kernel.request r
    { s.kernel.request r with dev := -1 }
  buffers : s'.kernel.buf = update s.kernel.buf b
    { s.kernel.buf b with uptodate := uptodate, lock := false }
  completed : s'.completed = s.completed ++ [s.number r]

/-- The state after `end_request`, for the slot `r` and its buffer `b`. -/
def ended (s : System β τ) (dev : Fin NR_BLK_DEV) (u : Bool) (r : Nat) (b : β) : System β τ :=
  { s with
    kernel :=
      { request := update s.kernel.request r
          { s.kernel.request r with dev := -1 }
        currentRequest := update s.kernel.currentRequest dev
          (s.kernel.request r).next
        buf := update s.kernel.buf b
          { s.kernel.buf b with uptodate := u, lock := false } }
    completed := s.completed ++ [s.number r] }

variable {u : Bool} {l : List Nat}

omit [DecidableEq τ] in
theorem request_ended_of_ne (hx : x ≠ r) :
    (ended s dev u r b).kernel.request x = s.kernel.request x :=
  update_of_ne hx ..

omit [DecidableEq τ] in
theorem next_ended : ((ended s dev u r b).kernel.request x).next = (s.kernel.request x).next := by
  rcases eq_or_ne x r with rfl | hx
  · simp [ended]
  · rw [request_ended_of_ne hx]

omit [DecidableEq τ] in
theorem used_ended : Used (ended s dev u r b).kernel x ↔ Used s.kernel x ∧ x ≠ r := by
  rcases eq_or_ne x r with rfl | hx
  · simp [Used, ended]
  · simp [Used, ended, hx]

theorem holds_ended : holds (ended s dev u r b) = update (holds s) (.slot r) none := by
  funext h
  cases h with
  | slot x =>
    rcases eq_or_ne x r with rfl | hx
    · have hn : ¬Used (ended s dev u x b).kernel x :=
        fun hu => (used_ended.mp hu).2 rfl
      rw [update_self, holds, if_neg hn]
    · have hu : Used (ended s dev u r b).kernel x ↔ Used s.kernel x :=
        used_ended.trans (and_iff_left hx)
      rw [update_of_ne (by simpa using hx)]
      simp only [holds, hu, request_ended_of_ne hx]
  | task t =>
    rw [update_of_ne (by simp)]
    rfl

omit [DecidableEq τ] in
theorem locks_ended : locks (ended s dev u r b).kernel = update (locks s.kernel) b false := by
  funext b'
  rcases eq_or_ne b' b with rfl | hb
  · simp [locks, ended]
  · simp [locks, ended, hb]

omit [DecidableEq τ] in
/-- The queue of the device goes on with the request after its head. -/
theorem Lists.ended (h : Lists s q) (hq : q dev = r :: l) :
    Lists (ended s dev u r b) (update q dev l) := by
  have hmem : r ∈ q dev := by
    rw [hq]
    exact List.mem_cons_self ..
  have hw := h.queue dev
  have hnd := h.once dev
  rw [hq] at hw hnd
  rw [List.nodup_cons] at hnd
  have hq' : ∀ d x, x ∈ update q dev l d ↔ x ∈ q d ∧ x ≠ r := by
    intro d x
    rcases eq_or_ne d dev with rfl | hd
    · rw [update_self, hq, List.mem_cons]
      constructor
      · intro hx
        refine ⟨.inr hx, ?_⟩
        rintro rfl
        exact hnd.1 hx
      · rintro ⟨hx, hxr⟩
        exact hx.resolve_left hxr
    · rw [update_of_ne hd]
      refine (and_iff_left_of_imp ?_).symm
      rintro hx rfl
      exact hd (h.apart hx hmem)
  refine ⟨fun d => ?_, fun d => ?_, fun {d d' x} hx hx' => ?_,
    fun {d x} hx => ?_, fun {d x} hx => ?_, fun {x} hx => ?_,
    fun {x} hx => ?_, fun {x} hx hc => ?_, h.ledger.complete hmem hq'⟩
  · rcases eq_or_ne d dev with rfl | hd
    · have hc : (Blk.ended s d u r b).kernel.currentRequest d
          = (s.kernel.request r).next := update_self ..
      rw [update_self, IsQueue, hc]
      exact Walk.congr hw.2 fun x _ => next_ended
    · have hc : (Blk.ended s dev u r b).kernel.currentRequest d
          = s.kernel.currentRequest d := update_of_ne hd ..
      rw [update_of_ne hd, IsQueue, hc]
      exact Walk.congr (h.queue d) fun x _ => next_ended
  · rcases eq_or_ne d dev with rfl | hd
    · rw [update_self]
      exact hnd.2
    · rw [update_of_ne hd]
      exact h.once d
  · exact h.apart ((hq' d x).mp hx).1 ((hq' d' x).mp hx').1
  · obtain ⟨hx, hxr⟩ := (hq' d x).mp hx
    exact used_ended.mpr ⟨h.used hx, hxr⟩
  · obtain ⟨hu, hoff⟩ := h.filled hx
    refine ⟨used_ended.mpr ⟨hu, ?_⟩, fun d' hx' => hoff d' ((hq' d' x).mp hx').1⟩
    rintro rfl
    exact hoff dev hmem
  · obtain ⟨hu, hxr⟩ := used_ended.mp hx
    rcases h.all hu with ⟨d, hd⟩ | hd
    · exact .inl ⟨d, (hq' d x).mpr ⟨hd, hxr⟩⟩
    · exact .inr hd
  · obtain ⟨hu, hxr⟩ := used_ended.mp hx
    rw [request_ended_of_ne hxr]
    exact h.full hu
  · obtain ⟨hu, hxr⟩ := used_ended.mp hx
    rw [request_ended_of_ne hxr] at hc
    exact h.low hu hc

/-- `end_request`. -/
theorem Inv.complete (h : Inv s q) (hs : complete s dev u = some s') :
    ∃ q' r b, Inv s' q' ∧ EndsHead s s' q q' dev u r b := by
  obtain ⟨hc, hs⟩ := Option.ite_none_left_eq_some.mp hs
  have hw := h.lists.queue dev
  cases hq : q dev with
  | nil =>
    rw [hq] at hw
    exact absurd hw hc
  | cons r l =>
    rw [hq] at hw
    have hr : s.kernel.currentRequest dev = r := hw.1
    have hm : r ∈ q dev := by
      rw [hq]
      exact List.mem_cons_self ..
    have hu := h.lists.used hm
    obtain ⟨b, hb⟩ := h.lists.full hu
    have hs' : s' = ended s dev u r b := by
      cases hs
      simp only [endRequest, Blk.ended, hr, hb]
    subst hs'
    refine ⟨update q dev l, r, b, ⟨h.lists.ended hq, ?_⟩, ?_,
      fun d hd => update_of_ne hd .., hb, rfl, rfl, rfl⟩
    · rw [holds_ended, locks_ended]
      refine h.owned.drop ?_
      rw [holds, if_pos hu]
      exact hb
    · rw [update_self]
      exact hq

-- ======== the runs

omit [DecidableEq τ] in
theorem Inv.touch (h : Inv s q) (dev blocknr : Nat) (u d : Bool) :
    Inv { s with kernel := touch s.kernel b dev blocknr u d } q := by
  refine ⟨h.lists.congr rfl rfl rfl rfl rfl rfl, ?_⟩
  have hl : locks (Blk.touch s.kernel b dev blocknr u d) = locks s.kernel := by
    funext b'
    rcases eq_or_ne b' b with rfl | hb
    · simp [locks, Blk.touch]
    · simp [locks, Blk.touch, hb]
  have hh : holds { s with kernel := Blk.touch s.kernel b dev blocknr u d }
      = holds s := Relinked.holds (fun _ => rfl) rfl
  rw [hl, hh]
  exact h.owned

theorem Inv.step {o : Op β τ} (h : Inv s q) (hs : step o s = some s') : ∃ q', Inv s' q' := by
  cases o with
  | make t major rw b =>
    unfold Blk.step at hs
    obtain ⟨hf, hs⟩ := Option.ite_none_right_eq_some.mp hs
    split at hs
    · rename_i hp
      cases hs
      refine ⟨q, h.makeRequest hf ?_ rw⟩
      rw [holds, hp]
      rfl
    · cases hs
  | resume t =>
    unfold Blk.step at hs
    obtain ⟨hf, hs⟩ := Option.ite_none_right_eq_some.mp hs
    exact ⟨q, h.resume hf hs⟩
  | add =>
    have hs' : Blk.add s = some s' := hs
    cases hf : s.filled with
    | none =>
      rw [Blk.add, hf] at hs'
      cases hs'
    | some p =>
      obtain ⟨s1, q', h1, hi⟩ := h.add hf
      rw [hs'] at h1
      cases h1
      exact ⟨q', hi⟩
  | endRequest dev u =>
    obtain ⟨q', r, b, hi, -⟩ := h.complete hs
    exact ⟨q', hi⟩
  | touch b dev blocknr u d =>
    cases hs
    exact ⟨q, h.touch dev blocknr u d⟩

omit [DecidableEq τ] [DecidableEq β] in
theorem inv_boot (h : s.Boot) : Inv s fun _ => [] := by
  obtain ⟨hdev, hcur, hlock, hplace, hfilled, hacc, hcomp⟩ := h
  have hu : ∀ {r}, ¬Used s.kernel r := by
    rintro r ⟨hr, hd⟩
    rw [hdev r hr] at hd
    exact absurd hd (by decide)
  have hnone : ∀ x, holds s x = none := by
    intro x
    cases x with
    | slot r => rw [holds, if_neg hu]
    | task t =>
      rw [holds, hplace]
      rfl
  refine ⟨⟨hcur, fun _ => List.nodup_nil, nofun, nofun, ?_, fun hm => absurd hm hu,
    fun hm => absurd hm hu, fun hm => absurd hm hu, ⟨fun n => ?_, ?_, nofun, nofun⟩⟩,
    ⟨fun b => ?_, ?_⟩⟩
  · intro _ _ hm
    rw [hfilled] at hm
    cases hm
  · simp [hacc, hcomp]
  · simp [hcomp]
  · simp [locks, hlock, hnone]
  · intro x x' b hx
    rw [hnone] at hx
    cases hx

/-- Slots, queues and buffers agree, for the queues `q`. -/
structure Conserved (s : System β τ) (q : Fin NR_BLK_DEV → List Nat) : Prop where
  queue : ∀ dev, IsQueue s.kernel dev (q dev) ∧ (q dev).Nodup
  /-- A slot with a device is on one queue, unless the running task has
  just filled it. -/
  slot : ∀ r < NR_REQUEST, 0 ≤ (s.kernel.request r).dev →
    (∀ dev, s.filled ≠ some (dev, r)) → ∃! dev, r ∈ q dev
  used : ∀ dev, ∀ r ∈ q dev, r < NR_REQUEST ∧ 0 ≤ (s.kernel.request r).dev
  buffer : ∀ dev, ∀ r ∈ q dev, ∃ b, (s.kernel.request r).bh = some b
    ∧ (s.kernel.buf b).lock = true ∧ ∀ dev', ∀ r' ∈ q dev',
      (s.kernel.request r').bh = some b → r' = r
  /-- A locked buffer is queued, or its task is between `lock_buffer` and
  `add_request`. -/
  locked : ∀ b, (s.kernel.buf b).lock = true →
    (∃ dev, ∃ r ∈ q dev, (s.kernel.request r).bh = some b)
    ∨ (∃ t major rw, s.place t = .waiting major rw b) ∨ ∃ dev r, s.filled = some (dev, r)
      ∧ (s.kernel.request r).bh = some b
  writes : ∀ dev, ∀ r ∈ q dev, (s.kernel.request r).cmd = .WRITE → r < NR_REQUEST * 2 / 3
  numbers : Ledger s q

omit [DecidableEq τ] [DecidableEq β] in
theorem Inv.conserved (h : Inv s q) : Conserved s q := by
  have hslot : ∀ {r b}, Used s.kernel r →
      (s.kernel.request r).bh = some b → holds s (.slot r) = some b := by
    intro r b hu hb
    rw [holds, if_pos hu, hb]
  refine ⟨fun d => ⟨h.lists.queue d, h.lists.once d⟩,
    fun r hr hd hf => ?_, fun d r hr => h.lists.used hr, fun d r hr => ?_, fun b hb => ?_,
    fun d r hr => h.lists.low (h.lists.used hr), h.lists.ledger⟩
  · rcases h.lists.all ⟨hr, hd⟩ with ⟨d, hm⟩ | ⟨d, hm⟩
    · exact ⟨d, hm, fun d' hm' => h.lists.apart hm' hm⟩
    · exact absurd hm (hf d)
  · obtain ⟨b, hb⟩ := h.lists.full (h.lists.used hr)
    have hh := hslot (h.lists.used hr) hb
    refine ⟨b, hb, h.owned.locked hh, fun d' r' hr' hb' => ?_⟩
    have heq := h.owned.unique (hslot (h.lists.used hr') hb') hh
    exact Holder.slot.inj heq
  · obtain ⟨x, hx⟩ := (h.owned.held b).mp hb
    cases x with
    | slot r =>
      obtain ⟨hu, hx⟩ := Option.ite_none_right_eq_some.mp hx
      rcases h.lists.all hu with ⟨d, hd⟩ | ⟨d, hd⟩
      · exact .inl ⟨d, r, hd, hx⟩
      · exact .inr (.inr ⟨d, r, hd, hx⟩)
    | task t =>
      rw [holds] at hx
      cases hp : s.place t with
      | idle | locking major rw ahead b' =>
        rw [hp] at hx
        cases hx
      | waiting major rw b' =>
        rw [hp] at hx
        cases hx
        exact .inr (.inl ⟨t, major, rw, hp⟩)

/-- In every run from boot the slots, the queues and the locks agree, a
filled slot can always be added, and the end of a request is the end of
the one at the head of its queue. -/
theorem requests_conserved {os : List (Op β τ)} {s₀ : System β τ}
    (h₀ : s₀.Boot) (h : runOps step os s₀ = some s) : ∃ q, Conserved s q
      ∧ (s.filled ≠ none → ∃ s', step .add s = some s')
      ∧ ∀ dev u s', step (.endRequest dev u) s = some s' →
        ∃ q' r b, EndsHead s s' q q' dev u r b ∧ Conserved s' q' := by
  have hI : ∃ q, Inv s q :=
    runOps_invariant_all (I := fun s => ∃ q, Inv s q)
      (fun o s s' ⟨q, hq⟩ hs => hq.step hs) h ⟨_, inv_boot h₀⟩
  obtain ⟨q, hq⟩ := hI
  refine ⟨q, hq.conserved, fun hf => ?_, fun dev u s' hs => ?_⟩
  · obtain ⟨⟨dev, req⟩, hp⟩ := Option.ne_none_iff_exists'.mp hf
    obtain ⟨s', -, hs', -⟩ := hq.add hp
    exact ⟨s', hs'⟩
  · obtain ⟨q', r, b, hi, he⟩ := hq.complete hs
    exact ⟨q', r, b, he, hi.conserved⟩

/-- Two buffers and two tasks, after boot. Both buffers are dirty and
not up to date. -/
def System.example₂ : System Bool Bool where
  kernel :=
    { request := fun _ => ⟨-1, .READ, 0, 0, 0, none, NULL⟩
      currentRequest := fun _ => NULL
      buf := fun b => ⟨0x301, if b then 7 else 9, false, true, false⟩ }
  place := fun _ => .idle
  filled := none
  accepted := 0
  number := fun _ => 0
  completed := []

/-- The hard disk. -/
def hd : Fin NR_BLK_DEV := ⟨3, by decide⟩

/-- A write and a read are queued. A second task waits for the buffer that
is being written, and finds that it need not read it. -/
theorem requests_conserved_write_read : ∃ s, runOps step
      [.make true hd .WRITE true, .add, .make true hd .READ false, .add,
        .make false hd .READ true, .endRequest hd true, .resume false] System.example₂ = some s
    ∧ (s.accepted, s.completed) = (2, [0]) ∧ ∃ q, Conserved s q := by
  refine exists_run (fun s => (s.accepted, s.completed) = (2, [0])) (by decide +kernel)
    fun s hs hv => ?_
  have hb : System.example₂.Boot := by
    simp [System.Boot, System.example₂]
  obtain ⟨q, hq, -⟩ := requests_conserved hb hs
  exact ⟨hv, q, hq⟩

end LearnLinux.Blk
