import Mathlib.Logic.Function.Basic
import Mathlib.Order.Nat
import Mathlib.Data.Nat.Find
import Mathlib.Data.List.Basic

/-!
# ChampSim.Lib.Aging

The search for a place of largest age: the first place with the last age, or all of them age by one
and the search starts over.

* `search n m fuel r` — the search in `n` places with ages `r` and the last age `m`.
* `Oldest n r w`      — `w` is the first of the places with the largest age.
* `search_eq`         — it is the one found, and all ages have grown by the same amount.
* `search_again`      — the search finds the same place again.
-/

namespace ChampSim
namespace Lib
namespace Aging

def aged (n k : Nat) (r : Nat → Nat) (i : Nat) : Nat := if i < n then r i + k else r i

/-- Out of `fuel`, the search has no result. -/
def search (n m : Nat) : Nat → (Nat → Nat) → Option (Nat × (Nat → Nat))
  | 0, _ => none
  | fuel + 1, r =>
    match (List.range n).find? fun i => r i == m with
    | some i => some (i, r)
    | none => search n m fuel (aged n 1 r)

structure Oldest (n : Nat) (r : Nat → Nat) (w : Nat) : Prop where
  lt : w < n
  largest : ∀ v < n, r v ≤ r w
  first : ∀ v < w, r v < r w

variable {n m k w : Nat} {r : Nat → Nat}

theorem aged_of_lt {i : Nat} (hi : i < n) : aged n k r i = r i + k := if_pos hi

@[simp] theorem aged_zero : aged n 0 r = r := by
  funext i
  simp [aged]

theorem aged_aged (j k : Nat) : aged n k (aged n j r) = aged n (j + k) r := by
  funext i
  unfold aged
  split <;> omega

theorem exists_oldest (hn : 0 < n) (r : Nat → Nat) : ∃ w, Oldest n r w := by
  have hmax : ∃ w, w < n ∧ ∀ v < n, r v ≤ r w := by
    induction n with
    | zero => exact absurd hn (Nat.lt_irrefl 0)
    | succ n ih =>
      rcases Nat.eq_zero_or_pos n with rfl | hpos
      · exact ⟨0, by omega, fun v hv => by rw [show v = 0 by omega]⟩
      · obtain ⟨w, hw, hmax⟩ := ih hpos
        rcases Nat.lt_or_ge (r w) (r n) with hlt | hge
        · refine ⟨n, by omega, fun v hv => ?_⟩
          rcases Nat.lt_succ_iff_lt_or_eq.mp hv with hv | rfl
          · exact (hmax v hv).trans hlt.le
          · exact le_rfl
        · refine ⟨w, by omega, fun v hv => ?_⟩
          rcases Nat.lt_succ_iff_lt_or_eq.mp hv with hv | rfl
          · exact hmax v hv
          · exact hge
  refine ⟨Nat.find hmax, (Nat.find_spec hmax).1, (Nat.find_spec hmax).2, fun v hv => ?_⟩
  have hlt : v < n := hv.trans (Nat.find_spec hmax).1
  by_contra hge
  refine Nat.find_min hmax hv ⟨hlt, fun u hu => ?_⟩
  exact ((Nat.find_spec hmax).2 u hu).trans (Nat.not_lt.mp hge)

theorem Oldest.aged (h : Oldest n r w) (k : Nat) : Oldest n (aged n k r) w where
  lt := h.lt
  largest := by
    intro v hv
    rw [aged_of_lt hv, aged_of_lt h.lt]
    exact Nat.add_le_add_right (h.largest v hv) k
  first := by
    intro v hv
    rw [aged_of_lt (hv.trans h.lt), aged_of_lt h.lt]
    exact Nat.add_lt_add_right (h.first v hv) k

/-- All ages grow alike. -/
theorem aged_lt_iff {u v : Nat} (hu : u < n) (hv : v < n) :
    aged n k r u < aged n k r v ↔ r u < r v := by
  rw [aged_of_lt hu, aged_of_lt hv]
  omega

theorem find_oldest (h : Oldest n r w) : ((List.range n).find? fun i => r i == r w) = some w := by
  rw [List.find?_range_eq_some]
  refine ⟨beq_self_eq_true _, List.mem_range.mpr h.lt, fun v hv => ?_⟩
  have hne : (r v == r w) = false := beq_eq_false_iff_ne.mpr (h.first v hv).ne
  rw [hne]
  rfl

/-- The rounds of the search are the steps from the largest age to the last one. -/
theorem search_eq (fuel : Nat) :
    ∀ {r : Nat → Nat}, Oldest n r w → r w ≤ m → m - r w < fuel →
      search n m fuel r = some (w, aged n (m - r w) r) := by
  induction fuel with
  | zero => exact fun _ _ hfuel => absurd hfuel (Nat.not_lt_zero _)
  | succ fuel ih =>
    intro r h hle hfuel
    unfold search
    by_cases heq : r w = m
    · rw [← heq, find_oldest h, Nat.sub_self, aged_zero]
    · have hnone : ((List.range n).find? fun i => r i == m) = none := by
        refine List.find?_eq_none.mpr fun v hv hm => ?_
        have hmax := h.largest v (List.mem_range.mp hv)
        have hv : r v = m := beq_iff_eq.mp hm
        omega
      have hnext : aged n 1 r w = r w + 1 := aged_of_lt h.lt
      rw [hnone]
      show search n m fuel (aged n 1 r) = _
      rw [ih (h.aged 1) (by omega) (by omega), aged_aged, hnext]
      congr 3
      omega

/-- What is found has the last age, in whatever state the search began. -/
theorem search_some {fuel : Nat} :
    ∀ {r r' : Nat → Nat}, search n m fuel r = some (w, r') →
      (∃ k, r' = aged n k r) ∧ ((List.range n).find? fun i => r' i == m) = some w := by
  induction fuel with
  | zero =>
    intro r r' h
    cases h
  | succ fuel ih =>
    intro r r' h
    unfold search at h
    split at h
    · rename_i i hi
      cases h
      exact ⟨⟨0, aged_zero.symm⟩, hi⟩
    · obtain ⟨⟨k, rfl⟩, hfind⟩ := ih h
      exact ⟨⟨1 + k, aged_aged 1 k⟩, hfind⟩

theorem search_again {fuel : Nat} {r r' : Nat → Nat} (h : search n m fuel r = some (w, r')) :
    search n m fuel r' = some (w, r') := by
  cases fuel with
  | zero => cases h
  | succ fuel =>
    unfold search
    rw [(search_some h).2]

end Aging
end Lib
end ChampSim
