import Mathlib.Data.Nat.Count
import Mathlib.Logic.Function.Basic

/-!
# ChampSim.Lib.Slots

Counting the slots of an array that satisfy a predicate, while single slots are rewritten. The
array is a function of the index, the count is `Nat.count` up to its size.

* `count_congr`   — the count depends on the slots below the size only.
* `count_raise`, `count_lower`, `count_update` — one slot changes.
* `exists_of_count_lt` — a slot is free when not all are taken.
-/

namespace ChampSim
namespace Lib

section Slots

variable {p q : Nat → Prop} [DecidablePred p] [DecidablePred q] {n i : Nat}

theorem count_congr (h : ∀ j < n, p j ↔ q j) : Nat.count p n = Nat.count q n := by
  induction n with
  | zero => simp
  | succ n ih =>
    rw [Nat.count_succ, Nat.count_succ, ih fun j hj => h j (by omega)]
    simp only [h n (Nat.lt_succ_self n)]

theorem count_raise (hi : i < n) (hp : ¬ p i) (hq : q i) (h : ∀ j < n, j ≠ i → (p j ↔ q j)) :
    Nat.count q n = Nat.count p n + 1 := by
  induction n with
  | zero => omega
  | succ n ih =>
    rw [Nat.count_succ, Nat.count_succ]
    by_cases hin : i = n
    · subst hin
      have hc := count_congr (p := p) (q := q) (n := i) fun j hj => h j (by omega) (by omega)
      rw [if_pos hq, if_neg hp, hc]
    · have hn := h n (Nat.lt_succ_self n) (by omega)
      rw [ih (by omega) fun j hj => h j (by omega)]
      simp only [hn]
      omega

theorem count_lower (hi : i < n) (hp : p i) (hq : ¬ q i) (h : ∀ j < n, j ≠ i → (p j ↔ q j)) :
    Nat.count p n = Nat.count q n + 1 :=
  count_raise hi hq hp fun j hj hne => (h j hj hne).symm

theorem count_pos_of (hi : i < n) (hp : p i) : 0 < Nat.count p n :=
  Nat.pos_of_ne_zero (Nat.count_ne_iff_exists.mpr ⟨i, hi, hp⟩)

theorem exists_of_count_lt (h : Nat.count p n < n) : ∃ i < n, ¬ p i := by
  by_contra hall
  have : Nat.count p n = n := Nat.count_iff_forall.mpr fun i hi => by
    by_contra hp
    exact hall ⟨i, hi, hp⟩
  omega

/-- One slot of the array is rewritten. -/
theorem count_update {α : Type*} (p : α → Prop) [DecidablePred p] (f : Nat → α) {n l : Nat}
    (hl : l < n) (e : α) :
    Nat.count (fun k => p (Function.update f l e k)) n + (if p (f l) then 1 else 0) =
      Nat.count (fun k => p (f k)) n + if p e then 1 else 0 := by
  have hself : p (Function.update f l e l) ↔ p e := by rw [Function.update_self]
  have hothers : ∀ k < n, k ≠ l → (p (Function.update f l e k) ↔ p (f k)) := fun k _ hk => by
    rw [Function.update_of_ne hk]
  by_cases hold : p (f l)
  · by_cases hnew : p e
    · rw [if_pos hold, if_pos hnew]
      refine congrArg (· + 1) (count_congr fun k hk => ?_)
      by_cases hkl : k = l
      · subst hkl
        exact ⟨fun _ => hold, fun _ => hself.mpr hnew⟩
      · exact hothers k hk hkl
    · rw [if_pos hold, if_neg hnew]
      exact (count_lower hl hold (fun h => hnew (hself.mp h)) fun k hk hkl =>
        (hothers k hk hkl).symm).symm
  · by_cases hnew : p e
    · rw [if_neg hold, if_pos hnew]
      exact count_raise hl hold (hself.mpr hnew) fun k hk hkl => (hothers k hk hkl).symm
    · rw [if_neg hold, if_neg hnew]
      refine congrArg (· + 0) (count_congr fun k hk => ?_)
      by_cases hkl : k = l
      · subst hkl
        exact ⟨fun h => absurd (hself.mp h) hnew, fun h => absurd h hold⟩
      · exact hothers k hk hkl

end Slots

end Lib
end ChampSim
