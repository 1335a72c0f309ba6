/-
A region of bytes.

The memory is a function from addresses to bytes. Lists of bytes are read
and written by `peek` and `poke` (`memcpy` out of and into the region),
integers of a fixed width by `load` and `store`, little end first. What
was written is read back, and what lies outside the written bytes is as it
was: these two facts for each pair of accesses are all that is needed of
the representation.
-/
import Mathlib

namespace LearnLinux.Lib

variable {m m' : Nat → UInt8} {a b n w v : Nat} {bs : List UInt8}

-- ======== byte lists

/-- The `n` bytes from `a` on. -/
def peek (m : Nat → UInt8) (a n : Nat) : List UInt8 :=
  (List.range n).map fun i => m (a + i)

/-- The bytes are written from `a` on. -/
def poke (m : Nat → UInt8) (a : Nat) (bs : List UInt8) : Nat → UInt8 :=
  fun x => if a ≤ x then (bs[x - a]?).getD (m x) else m x

@[simp] theorem peek_length : (peek m a n).length = n := by simp [peek]

theorem peek_congr (h : ∀ x, a ≤ x → x < a + n → m' x = m x) : peek m' a n = peek m a n := by
  refine List.map_congr_left fun i hi => ?_
  have := List.mem_range.mp hi
  exact h (a + i) (by omega) (by omega)

theorem poke_of_outside {x : Nat} (h : x < a ∨ a + bs.length ≤ x) : poke m a bs x = m x := by
  unfold poke
  split
  · rw [List.getElem?_eq_none (by omega)]
    rfl
  · rfl

theorem peek_poke_self (m : Nat → UInt8) (a : Nat) (bs : List UInt8) :
    peek (poke m a bs) a bs.length = bs := by
  refine List.ext_getElem (by simp) fun i hi hi' => ?_
  simp only [peek, List.getElem_map, List.getElem_range]
  unfold poke
  rw [if_pos (by omega), show a + i - a = i by omega, List.getElem?_eq_getElem hi']
  rfl

theorem peek_poke_of_disjoint (h : b + n ≤ a ∨ a + bs.length ≤ b) :
    peek (poke m a bs) b n = peek m b n :=
  peek_congr fun x hx hx' => poke_of_outside (by omega)

-- ======== integers

/-- The bytes of an integer, low byte first. -/
def encode : Nat → Nat → List UInt8
  | 0, _ => []
  | w + 1, v => UInt8.ofNat v :: encode w (v / 256)

/-- The integer of bytes, low byte first. -/
def decode : List UInt8 → Nat
  | [] => 0
  | b :: bs => b.toNat + 256 * decode bs

@[simp] theorem encode_length : (encode w v).length = w := by
  induction w generalizing v with
  | zero => rfl
  | succ w ih => rw [encode, List.length_cons, ih]

theorem decode_encode (h : v < 256 ^ w) : decode (encode w v) = v := by
  induction w generalizing v with
  | zero =>
    rw [encode, decode]
    omega
  | succ w ih =>
    have hdiv : v / 256 < 256 ^ w := by
      rw [Nat.div_lt_iff_lt_mul (by omega), ← Nat.pow_succ]
      exact h
    rw [encode, decode, ih hdiv, UInt8.toNat_ofNat']
    omega

/-- The integer of `w` bytes at `a`. -/
def load (w : Nat) (m : Nat → UInt8) (a : Nat) : Nat := decode (peek m a w)

/-- An integer is written to the `w` bytes at `a`. -/
def store (w : Nat) (m : Nat → UInt8) (a v : Nat) : Nat → UInt8 :=
  poke m a (encode w v)

theorem load_store_self (h : v < 256 ^ w) : load w (store w m a v) a = v := by
  have hpeek := peek_poke_self m a (encode w v)
  rw [encode_length] at hpeek
  rw [load, store, hpeek, decode_encode h]

theorem peek_store_of_disjoint (h : b + n ≤ a ∨ a + w ≤ b) :
    peek (store w m a v) b n = peek m b n :=
  peek_poke_of_disjoint (by rwa [encode_length])

theorem load_store_of_disjoint {w' : Nat} (h : b + w' ≤ a ∨ a + w ≤ b) :
    load w' (store w m a v) b = load w' m b := by
  rw [load, load, peek_store_of_disjoint h]

theorem load_poke_of_disjoint (h : b + w ≤ a ∨ a + bs.length ≤ b) :
    load w (poke m a bs) b = load w m b := by
  rw [load, load, peek_poke_of_disjoint h]

end LearnLinux.Lib
