import Mathlib.Data.List.Sort

/-!
# ChampSim.Lib.Bound

The element before the upper bound in a sorted list.

* `lastWhile`          — the last element of the prefix on which a predicate holds.
* `lastWhile_eq_some`  — on a sorted list, with a predicate that holds of all below what it holds
  of, it is the greatest element of the whole list that satisfies the predicate.
-/

namespace ChampSim
namespace Lib

section Bound

variable {α : Type*}

/-- The predecessor of `std::upper_bound` when `p` says that an element is not above the value. -/
def lastWhile (p : α → Bool) (l : List α) : Option α := (l.takeWhile p).getLast?

variable {r : α → α → Prop} {p : α → Bool} {l : List α}

theorem takeWhile_eq_filter (hs : l.Pairwise r) (hp : ∀ x y, r x y → p y = true → p x = true) :
    l.takeWhile p = l.filter p := by
  induction l with
  | nil => rfl
  | cons x l ih =>
    rw [List.pairwise_cons] at hs
    by_cases hx : p x = true
    · rw [List.takeWhile_cons_of_pos hx, List.filter_cons_of_pos hx, ih hs.2]
    · have hnone : l.filter p = [] := by
        rw [List.filter_eq_nil_iff]
        intro y hy hpy
        exact hx (hp x y (hs.1 y hy) hpy)
      rw [List.takeWhile_cons_of_neg hx, List.filter_cons_of_neg hx, hnone]

theorem last_greatest (hr : ∀ x, r x x) (hs : l.Pairwise r) {x : α} (h : l.getLast? = some x) :
    ∀ y ∈ l, r y x := by
  intro y hy
  obtain ⟨init, rfl⟩ := List.getLast?_eq_some_iff.1 h
  cases List.mem_append.1 hy with
  | inl hinit => exact (List.pairwise_append.1 hs).2.2 y hinit x List.mem_cons_self
  | inr hlast =>
    rw [List.mem_singleton.1 hlast]
    exact hr x

theorem lastWhile_eq_some (hr : ∀ x, r x x) (hs : l.Pairwise r)
    (hp : ∀ x y, r x y → p y = true → p x = true) {x : α} (h : lastWhile p l = some x) :
    x ∈ l ∧ p x = true ∧ ∀ y ∈ l, p y = true → r y x := by
  rw [lastWhile, takeWhile_eq_filter hs hp] at h
  have hmem : x ∈ l.filter p := List.mem_of_getLast? h
  refine ⟨(List.mem_filter.1 hmem).1, (List.mem_filter.1 hmem).2, ?_⟩
  intro y hy hpy
  exact last_greatest hr (hs.filter p) h y (List.mem_filter.2 ⟨hy, hpy⟩)

theorem lastWhile_isSome (hs : l.Pairwise r) (hp : ∀ x y, r x y → p y = true → p x = true) {x : α}
    (hx : x ∈ l) (hpx : p x = true) : ∃ y, lastWhile p l = some y := by
  have hne : l.filter p ≠ [] := List.ne_nil_of_mem (List.mem_filter.2 ⟨hx, hpx⟩)
  rw [lastWhile, takeWhile_eq_filter hs hp]
  exact ⟨_, List.getLast?_eq_getLast_of_ne_nil hne⟩

end Bound

end Lib
end ChampSim
