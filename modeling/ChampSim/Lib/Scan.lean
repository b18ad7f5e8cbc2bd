import Mathlib.Order.Lattice

/-!
# ChampSim.Lib.Scan

The scan for the earliest entry: a loop over the indices below `n` that remembers the first index
of smallest key among those that qualify and whose key is below a sentinel.

* `scanMin p key top n` — the smallest key seen and its index, or `(top, none)`.
* `scanMin_some` / `scanMin_none` — what the result says about every index below `n`.
-/

namespace ChampSim
namespace Lib

section Scan

variable {κ : Type*} [LinearOrder κ] (p : Nat → Bool) (key : Nat → κ) (top : κ)

def scanMin : Nat → κ × Option Nat
  | 0 => (top, none)
  | n + 1 =>
    let r := scanMin n
    if p n ∧ key n < r.1 then (key n, some n) else r

variable {p key top}

theorem scanMin_none {n : Nat} (h : (scanMin p key top n).2 = none) :
    (scanMin p key top n).1 = top ∧ ∀ j < n, p j → top ≤ key j := by
  induction n with
  | zero => exact ⟨rfl, fun j hj => absurd hj (Nat.not_lt_zero j)⟩
  | succ n ih =>
    simp only [scanMin] at h ⊢
    split at h
    · cases h
    · rename_i hn
      rw [if_neg hn]
      obtain ⟨htop, hall⟩ := ih h
      refine ⟨htop, fun j hj hpj => ?_⟩
      rcases Nat.lt_succ_iff_lt_or_eq.mp hj with hlt | rfl
      · exact hall j hlt hpj
      · exact not_lt.mp fun hlt => hn ⟨hpj, by rw [htop]; exact hlt⟩

/-- The index found qualifies, its key is the one remembered and below the sentinel, no
qualifying index has a smaller key and no earlier one has the same. -/
theorem scanMin_some {n i : Nat} (h : (scanMin p key top n).2 = some i) :
    i < n ∧ p i ∧ (scanMin p key top n).1 = key i ∧ key i < top ∧
      (∀ j < n, p j → key i ≤ key j) ∧ ∀ j < i, p j → key i < key j := by
  induction n generalizing i with
  | zero => cases h
  | succ n ih =>
    simp only [scanMin] at h ⊢
    split at h
    · rename_i hn
      rw [if_pos hn]
      cases h
      cases hr : (scanMin p key top n).2 with
      | none =>
        obtain ⟨htop, hall⟩ := scanMin_none hr
        have hlt : key n < top := htop ▸ hn.2
        refine ⟨Nat.lt_succ_self n, hn.1, rfl, hlt, fun j hj hpj => ?_,
          fun j hj hpj => lt_of_lt_of_le hlt (hall j hj hpj)⟩
        rcases Nat.lt_succ_iff_lt_or_eq.mp hj with hj | rfl
        · exact le_trans (le_of_lt hlt) (hall j hj hpj)
        · exact le_refl _
      | some k =>
        obtain ⟨_, _, hkey, htop, hmin, _⟩ := ih hr
        have hlt : key n < key k := hkey ▸ hn.2
        refine ⟨Nat.lt_succ_self n, hn.1, rfl, lt_trans hlt htop, fun j hj hpj => ?_,
          fun j hj hpj => lt_of_lt_of_le hlt (hmin j hj hpj)⟩
        rcases Nat.lt_succ_iff_lt_or_eq.mp hj with hj | rfl
        · exact le_trans (le_of_lt hlt) (hmin j hj hpj)
        · exact le_refl _
    · rename_i hn
      rw [if_neg hn]
      obtain ⟨hi, hpi, hkey, htop, hmin, hfirst⟩ := ih h
      refine ⟨Nat.lt_succ_of_lt hi, hpi, hkey, htop, fun j hj hpj => ?_, hfirst⟩
      rcases Nat.lt_succ_iff_lt_or_eq.mp hj with hj | rfl
      · exact hmin j hj hpj
      · exact not_lt.mp fun hlt => hn ⟨hpj, by rw [hkey]; exact hlt⟩

theorem scanMin_congr {p' : Nat → Bool} {key' : Nat → κ} {n : Nat}
    (hp : ∀ j < n, p j = p' j) (hk : ∀ j < n, p j → key j = key' j) :
    scanMin p key top n = scanMin p' key' top n := by
  induction n with
  | zero => rfl
  | succ n ih =>
    have hn := ih (fun j hj => hp j (by omega)) (fun j hj => hk j (by omega))
    simp only [scanMin, hn, ← hp n (Nat.lt_succ_self n)]
    by_cases hpn : p n = true
    · rw [hk n (Nat.lt_succ_self n) hpn]
    · simp [hpn]

end Scan

end Lib
end ChampSim
