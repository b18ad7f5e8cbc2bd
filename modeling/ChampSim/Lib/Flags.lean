import Mathlib.Data.Fintype.Card
import Mathlib.Data.Finset.Card
import Mathlib.Logic.Function.Basic

/-!
# ChampSim.Lib.Flags

Flags that are set one at a time and never cleared.

* `AllSet f`, `numSet f` — whether all are set, and how many.
* `unset_of_set`         — setting one leaves the others as they were.
* `numSet_set`           — setting one more.
* `numSet_eq_card`       — all are set when the number says so.
-/

namespace ChampSim
namespace Lib

variable {ι : Type*} {f : ι → Bool}

def AllSet (f : ι → Bool) : Prop := ∀ i, f i = true

/-- What is not set after one more has been set. -/
theorem unset_of_set [DecidableEq ι] {i j : ι} (h : Function.update f i true j = false) :
    j ≠ i ∧ f j = false := by
  by_cases hj : j = i
  · rw [hj, Function.update_self] at h
    cases h
  · rw [Function.update_of_ne hj] at h
    exact ⟨hj, h⟩

variable [Fintype ι]

instance : Decidable (AllSet f) := inferInstanceAs (Decidable (∀ i, f i = true))

def numSet (f : ι → Bool) : Nat := (Finset.univ.filter fun i => f i = true).card

theorem numSet_none : numSet (fun _ : ι => false) = 0 := by
  simp [numSet]

theorem numSet_set [DecidableEq ι] {i : ι} (h : f i = false) :
    numSet (Function.update f i true) = numSet f + 1 := by
  have hinsert : (Finset.univ.filter fun j => Function.update f i true j = true) =
      insert i (Finset.univ.filter fun j => f j = true) := by
    ext j
    by_cases hj : j = i
    · simp [hj]
    · simp [hj]
  have hnot : i ∉ Finset.univ.filter fun j => f j = true := by simp [h]
  unfold numSet
  rw [hinsert, Finset.card_insert_of_notMem hnot]

theorem numSet_le : numSet f ≤ Fintype.card ι := Finset.card_filter_le ..

theorem numSet_eq_card : numSet f = Fintype.card ι ↔ AllSet f := by
  unfold numSet AllSet
  rw [Finset.card_eq_iff_eq_univ, Finset.filter_eq_self]
  exact ⟨fun h i => h i (Finset.mem_univ i), fun h i _ => h i⟩

end Lib
end ChampSim
