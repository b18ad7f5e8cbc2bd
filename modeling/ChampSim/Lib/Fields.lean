import Mathlib.Algebra.BigOperators.Fin
import Mathlib.Data.Nat.Bitwise
import Mathlib.Data.Set.Function

/-!
# ChampSim.Lib.Fields

A number as bit fields packed side by side, field 0 at the bottom.

* `slice`  — `w` bits from position `s`.
* `offset` — the widths of the fields below one.
* `bijOn`  — the numbers of the total width are exactly the choices of a value for each field.
-/

namespace ChampSim
namespace Lib
namespace Fields

def slice (s w a : Nat) : Nat := (a >>> s) % 2 ^ w

theorem slice_lt (s w a : Nat) : slice s w a < 2 ^ w :=
  Nat.mod_lt _ (Nat.two_pow_pos w)

@[simp] theorem slice_zero_width (s a : Nat) : slice s 0 a = 0 := Nat.mod_one _

/-- A slice depends on nothing above it. -/
theorem slice_mod {s w n : Nat} (h : s + w ≤ n) (a : Nat) : slice s w (a % 2 ^ n) = slice s w a := by
  refine Nat.eq_of_testBit_eq fun k => ?_
  simp only [slice, Nat.testBit_mod_two_pow, Nat.testBit_shiftRight]
  rcases Nat.lt_or_ge k w with hk | hk
  · have hin : s + k < n := by omega
    simp [hin]
  · simp [Nat.not_lt.2 hk]

section Packed

variable {k : Nat} (w : Fin k → Nat)

def offset (i : Fin k) : Nat := ∑ j : Fin i, w (Fin.castLE i.is_lt.le j)

theorem prod_below (i : Fin k) :
    ∏ j : Fin i, 2 ^ w (Fin.castLE i.is_lt.le j) = 2 ^ offset w i :=
  Finset.prod_pow_eq_pow_sum _ _ _

theorem symm_apply {a : Nat} (h : a < ∏ i, 2 ^ w i) (i : Fin k) :
    (finPiFinEquiv.symm (⟨a, h⟩ : Fin (∏ i, 2 ^ w i)) i : Nat) = slice (offset w i) (w i) a := by
  rw [slice, Nat.shiftRight_eq_div_pow, ← prod_below]
  rfl

theorem bijOn : Set.BijOn (fun a i => slice (offset w i) (w i) a) {a | a < 2 ^ ∑ i, w i}
    {d | ∀ i, d i < 2 ^ w i} := by
  have htotal : ∏ i, 2 ^ w i = 2 ^ ∑ i, w i := Finset.prod_pow_eq_pow_sum _ _ _
  rw [← htotal]
  refine ⟨?_, ?_, ?_⟩
  · intro a _ i
    exact slice_lt _ _ a
  · intro a ha b hb hab
    have heq : finPiFinEquiv.symm (⟨a, ha⟩ : Fin (∏ i, 2 ^ w i)) = finPiFinEquiv.symm ⟨b, hb⟩ := by
      funext i
      refine Fin.ext ?_
      rw [symm_apply, symm_apply]
      exact congrFun hab i
    exact congrArg Fin.val (finPiFinEquiv.symm.injective heq)
  · intro d hd
    let f : ∀ i, Fin (2 ^ w i) := fun i => ⟨d i, hd i⟩
    refine ⟨finPiFinEquiv f, (finPiFinEquiv f).isLt, ?_⟩
    funext i
    have hslice := symm_apply w (finPiFinEquiv f).isLt i
    rw [Fin.eta, Equiv.symm_apply_apply] at hslice
    exact hslice.symm

end Packed

end Fields
end Lib
end ChampSim
