import Mathlib.Data.List.Basic
import Mathlib.Data.UInt
import Mathlib.Tactic.Ring

/-!
# ChampSim.Lib.Codec

Values stored in a fixed number of bytes.

* `Codec α`        — how the values of `α` are put into bytes and got back; `Holds` are those that
  survive.
* `byte`, `word w` — a byte; a number in `w` bytes, the low one first.
* `pair`, `array`, `iso` — one value after another, as a record or an array has them.
* `write`, `records` — a file of such values, and what a reader of whole values finds in a file.
* `records_write`  — it finds what was written, whatever part of a value follows.
-/

namespace ChampSim
namespace Lib

structure Codec (α : Type) where
  width : Nat
  put : α → List UInt8
  get : List UInt8 → α
  Holds : α → Prop
  length_put : ∀ a, (put a).length = width
  get_put : ∀ a rest, Holds a → get (put a ++ rest) = a

namespace Codec

variable {α β : Type}

/-! ## Values -/

def byte : Codec UInt8 where
  width := 1
  put := fun b => [b]
  get := fun bs => bs.headD 0
  Holds := fun _ => True
  length_put := fun _ => rfl
  get_put := fun _ _ _ => rfl

def putWord : Nat → Nat → List UInt8
  | 0, _ => []
  | w + 1, n => UInt8.ofNat n :: putWord w (n / 256)

def getWord : Nat → List UInt8 → Nat
  | 0, _ => 0
  | w + 1, bs => (bs.headD 0).toNat + 256 * getWord w bs.tail

theorem length_putWord (w n : Nat) : (putWord w n).length = w := by
  induction w generalizing n with
  | zero => rfl
  | succ w ih => simp [putWord, ih]

theorem getWord_putWord (w n : Nat) (rest : List UInt8) :
    getWord w (putWord w n ++ rest) = n % 256 ^ w := by
  induction w generalizing n with
  | zero => simp [getWord, Nat.mod_one]
  | succ w ih =>
    have hlow : (UInt8.ofNat n).toNat = n % 256 := UInt8.toNat_ofNat'
    simp only [putWord, getWord, List.cons_append, List.headD_cons, List.tail_cons, ih, hlow]
    rw [pow_succ', Nat.mod_mul]

def word (w : Nat) : Codec Nat where
  width := w
  put := putWord w
  get := getWord w
  Holds := fun n => n < 256 ^ w
  length_put := length_putWord w
  get_put := fun n rest h => (getWord_putWord w n rest).trans (Nat.mod_eq_of_lt h)

/-! ## Records and arrays -/

theorem get_drop (d : Codec β) (a : List UInt8) (n : Nat) (h : a.length = n) (b : β)
    (rest : List UInt8) (hb : d.Holds b) : d.get ((a ++ d.put b ++ rest).drop n) = b := by
  rw [List.append_assoc, ← h, List.drop_left]
  exact d.get_put b rest hb

def pair (c : Codec α) (d : Codec β) : Codec (α × β) where
  width := c.width + d.width
  put := fun p => c.put p.1 ++ d.put p.2
  get := fun bs => (c.get bs, d.get (bs.drop c.width))
  Holds := fun p => c.Holds p.1 ∧ d.Holds p.2
  length_put := fun p => by rw [List.length_append, c.length_put, d.length_put]
  get_put := fun p rest h => by
    rw [get_drop d _ _ (c.length_put p.1) p.2 rest h.2, List.append_assoc, c.get_put _ _ h.1]

theorem length_flatMap_put (c : Codec α) (xs : List α) :
    (xs.flatMap c.put).length = xs.length * c.width := by
  induction xs with
  | nil => simp
  | cons x xs ih =>
    rw [List.flatMap_cons, List.length_append, c.length_put, ih, List.length_cons]
    ring

/-- The value in place `k` of a row of them. -/
theorem get_flatMap (c : Codec α) {xs : List α} {k : Nat} {x : α} (hx : xs[k]? = some x)
    (hold : c.Holds x) (rest : List UInt8) :
    c.get ((xs.flatMap c.put ++ rest).drop (k * c.width)) = x := by
  induction xs generalizing k with
  | nil => simp at hx
  | cons y xs ih =>
    cases k with
    | zero =>
      obtain rfl : y = x := by simpa using hx
      rw [Nat.zero_mul, List.drop_zero, List.flatMap_cons, List.append_assoc]
      exact c.get_put y _ hold
    | succ k =>
      have hk : xs[k]? = some x := by simpa using hx
      have hdrop : (k + 1) * c.width = (c.put y).length + k * c.width := by
        rw [c.length_put]
        ring
      rw [List.flatMap_cons, List.append_assoc, hdrop, ← List.drop_drop, List.drop_left]
      exact ih hk

/-- The first `n` of a sequence, the rest being `a`. -/
def array (c : Codec α) (n : Nat) (a : α) : Codec (Nat → α) where
  width := n * c.width
  put := fun f => ((List.range n).map f).flatMap c.put
  get := fun bs i => if i < n then c.get (bs.drop (i * c.width)) else a
  Holds := fun f => (∀ i < n, c.Holds (f i)) ∧ ∀ i, n ≤ i → f i = a
  length_put := fun f => by rw [length_flatMap_put, List.length_map, List.length_range]
  get_put := fun f rest h => by
    funext i
    by_cases hi : i < n
    · rw [if_pos hi]
      exact get_flatMap c (by simp [hi]) (h.1 i hi) rest
    · rw [if_neg hi, h.2 i (Nat.not_lt.mp hi)]

/-- `P` are the values that `g` takes apart without a loss. -/
def iso (c : Codec α) (f : α → β) (g : β → α) (P : β → Prop) (hfg : ∀ b, P b → f (g b) = b) :
    Codec β where
  width := c.width
  put := fun b => c.put (g b)
  get := fun bs => f (c.get bs)
  Holds := fun b => P b ∧ c.Holds (g b)
  length_put := fun b => c.length_put (g b)
  get_put := fun b rest h => by rw [c.get_put _ rest h.2, hfg b h.1]

/-! ## Files -/

def write (c : Codec α) (xs : List α) : List UInt8 := xs.flatMap c.put

/-- The values that are there as a whole. -/
def records (c : Codec α) (bs : List UInt8) : List α :=
  (List.range (bs.length / c.width)).map fun k => c.get (bs.drop (k * c.width))

theorem records_write (c : Codec α) (hpos : 0 < c.width) {xs : List α} (hold : ∀ x ∈ xs, c.Holds x)
    {rest : List UInt8} (hrest : rest.length < c.width) : c.records (c.write xs ++ rest) = xs := by
  have hcount : (c.write xs ++ rest).length / c.width = xs.length := by
    rw [List.length_append, write, length_flatMap_put, Nat.add_comm, Nat.add_mul_div_right _ _ hpos,
      Nat.div_eq_of_lt hrest, Nat.zero_add]
  unfold records
  rw [hcount]
  refine List.ext_getElem (by simp) fun k hk hk' => ?_
  rw [List.getElem_map, List.getElem_range]
  exact get_flatMap c (List.getElem?_eq_getElem hk') (hold _ (List.getElem_mem hk')) rest

end Codec

end Lib
end ChampSim
