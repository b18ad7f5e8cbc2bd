import ChampSim.Lib.Ring
import Mathlib.Logic.Equiv.Defs

/-!
# ChampSim.Lib.RingWalk

Walks over a ring buffer from the head on, in two runs of slots when they wrap.

* `walk size head limit` — the slots from `head` up to `limit`; all slots when the two are equal.
* `walk_idx`             — they are the first places after the head, in order.
* `Wf.walk_tail`         — the walk to the tail visits the live entries, the oldest first.
* `toOrigin size head`   — the slots renamed by their places after `head`.
-/

namespace ChampSim
namespace Lib
namespace Ring

variable {α : Type*} {E : α → Prop} {r : Ring α} {size head k : Nat}

def walk (size head limit : Nat) : List Nat :=
  if head < limit then List.range' head (limit - head)
  else List.range' head (size - head) ++ List.range limit

theorem map_idx_low (h : head + k ≤ size) :
    (List.range k).map (idx size head) = List.range' head k := by
  rw [List.range'_eq_map_range]
  refine List.map_congr_left fun j hj => ?_
  have hj := List.mem_range.mp hj
  unfold idx
  rw [if_pos (by omega)]

theorem map_idx_wrapped (hh : head < size) (h : size ≤ head + k) :
    (List.range k).map (idx size head) =
      List.range' head (size - head) ++ List.range (head + k - size) := by
  obtain ⟨m, rfl⟩ : ∃ m, k = (size - head) + m := ⟨k - (size - head), by omega⟩
  rw [List.range_add, List.map_append, map_idx_low (by omega), List.map_map,
    show head + (size - head + m) - size = m by omega]
  congr 1
  conv_rhs => rw [← List.map_id (List.range m)]
  refine List.map_congr_left fun j _ => ?_
  show idx size head (size - head + j) = j
  unfold idx
  rw [if_neg (by omega)]
  omega

theorem walk_idx (hh : head < size) (hk : 0 < k) (hle : k ≤ size) :
    walk size head (idx size head k) = (List.range k).map (idx size head) := by
  unfold walk
  by_cases hwrap : head + k < size
  · have hidx : idx size head k = head + k := if_pos hwrap
    rw [hidx, if_pos (by omega), map_idx_low (by omega), Nat.add_sub_cancel_left]
  · have hidx : idx size head k = head + k - size := if_neg hwrap
    rw [hidx, if_neg (by omega), map_idx_wrapped hh (by omega)]

/-- The walk to the tail. -/
theorem Wf.walk_tail (h : Wf E r) (ho : 0 < r.occupancy) :
    walk r.size r.head r.tail = (List.range r.occupancy).map (idx r.size r.head) := by
  rw [h.tail_eq]
  exact walk_idx (h.head_lt (h.size_pos ho)) ho h.occ_le

theorem leftInverse_idx (hh : head < size) :
    Function.LeftInverse (fun k => if k < size then idx size head k else k)
      fun i => if i < size then (if head ≤ i then i - head else i + size - head) else i := by
  intro i
  by_cases hi : i < size
  · by_cases hle : head ≤ i
    · grind [idx]
    · grind [idx]
  · simp [hi]

theorem rightInverse_idx (hh : head < size) :
    Function.RightInverse (fun k => if k < size then idx size head k else k)
      fun i => if i < size then (if head ≤ i then i - head else i + size - head) else i := by
  intro k
  by_cases hk : k < size
  · by_cases hwrap : head + k < size
    · grind [idx]
    · grind [idx]
  · simp [hk]

def toOrigin {size head : Nat} (hh : head < size) : Equiv.Perm Nat where
  toFun i := if i < size then (if head ≤ i then i - head else i + size - head) else i
  invFun k := if k < size then idx size head k else k
  left_inv := leftInverse_idx hh
  right_inv := rightInverse_idx hh

theorem toOrigin_idx (hh : head < size) (hk : k < size) : toOrigin hh (idx size head k) = k := by
  have hinv : (toOrigin hh).symm k = idx size head k := if_pos hk
  rw [← hinv, Equiv.apply_symm_apply]

theorem toOrigin_lt (hh : head < size) (i : Nat) : toOrigin hh i < size ↔ i < size := by
  show (if i < size then _ else i) < size ↔ _
  by_cases hi : i < size
  · grind
  · simp [hi]

theorem find?_map_range_eq_some {f : Nat → Nat} {p : Nat → Bool} {n i : Nat} :
    ((List.range n).map f).find? p = some i ↔
      ∃ k < n, i = f k ∧ p (f k) = true ∧ ∀ j < k, p (f j) = false := by
  rw [List.find?_map, Option.map_eq_some_iff]
  constructor
  · rintro ⟨k, hk, rfl⟩
    obtain ⟨hp, hlt, hmin⟩ := List.find?_range_eq_some.mp hk
    refine ⟨k, List.mem_range.mp hlt, rfl, hp, fun j hj => ?_⟩
    simpa using hmin j hj
  · rintro ⟨k, hk, rfl, hp, hmin⟩
    refine ⟨k, List.find?_range_eq_some.mpr ⟨hp, List.mem_range.mpr hk, fun j hj => ?_⟩, rfl⟩
    simp [hmin j hj]

/-- The search from the other end. -/
theorem find?_reverse_map_range_eq_some {f : Nat → Nat} {p : Nat → Bool} {n i : Nat} :
    ((List.range n).map f).reverse.find? p = some i ↔
      ∃ k < n, i = f k ∧ p (f k) = true ∧ ∀ j < n, k < j → p (f j) = false := by
  induction n with
  | zero => simp
  | succ n ih =>
    rw [List.range_succ, List.map_append, List.reverse_append]
    show (f n :: ((List.range n).map f).reverse).find? p = some i ↔ _
    cases hp : p (f n) with
    | true =>
      rw [List.find?_cons_of_pos hp]
      constructor
      · intro hi
        exact ⟨n, Nat.lt_succ_self n, (Option.some.inj hi).symm, hp, fun j hj hn => by omega⟩
      · rintro ⟨k, hk, rfl, -, hlast⟩
        rcases Nat.lt_succ_iff_lt_or_eq.mp hk with hlt | rfl
        · exact absurd hp (by simp [hlast n (Nat.lt_succ_self n) hlt])
        · rfl
    | false =>
      rw [List.find?_cons_of_neg (by simp [hp]), ih]
      constructor
      · rintro ⟨k, hk, rfl, hpk, hlast⟩
        refine ⟨k, Nat.lt_succ_of_lt hk, rfl, hpk, fun j hj hkj => ?_⟩
        rcases Nat.lt_succ_iff_lt_or_eq.mp hj with hlt | rfl
        · exact hlast j hlt hkj
        · exact hp
      · rintro ⟨k, hk, rfl, hpk, hlast⟩
        rcases Nat.lt_succ_iff_lt_or_eq.mp hk with hlt | rfl
        · exact ⟨k, hlt, rfl, hpk, fun j hj hkj => hlast j (Nat.lt_succ_of_lt hj) hkj⟩
        · exact absurd hpk (by simp [hp])

end Ring
end Lib
end ChampSim
