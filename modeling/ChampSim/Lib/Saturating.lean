import Mathlib.Algebra.BigOperators.Group.Finset.Basic
import Mathlib.Algebra.GroupWithZero.Nat
import Mathlib.Algebra.Order.BigOperators.Group.Finset
import Mathlib.Data.Fintype.Basic
import Mathlib.Data.List.Basic

/-!
# ChampSim.Lib.Saturating

Saturating counters that predict, alone and in a table.

* `gathered`      — the weight that the steps of a run gather; `gathered_le` bounds it by a potential.
* `tableStep`     — a table of equal machines; an event goes to the machine of its key.
* `table_slot`    — each machine sees the events of its key only.
* `gathered_table` — the weight of the table is that of its machines together.
* `saturate`      — a counter between 0 and `top` that moves with the outcomes.
* `le_saturates`, `saturates_le_count` — how far the outcomes of either kind move it.
* `wrong_le`      — the wrong predictions are bounded by the outcomes of either kind.
-/

namespace ChampSim
namespace Lib

/-! ## Weights along a run -/

section Gathered

variable {σ α : Type*} {step : σ → α → σ} {w : σ → α → Nat}

def gathered (step : σ → α → σ) (w : σ → α → Nat) : σ → List α → Nat
  | _, [] => 0
  | s, a :: as => w s a + gathered step w (step s a) as

/-- Each step pays its weight from its own cost and from the potential. -/
theorem gathered_le {φ : σ → Nat} {cost : α → Nat}
    (hstep : ∀ s a, w s a + φ (step s a) ≤ φ s + cost a) (s : σ) (as : List α) :
    gathered step w s as + φ (as.foldl step s) ≤ φ s + (as.map cost).sum := by
  induction as generalizing s with
  | nil => simp [gathered]
  | cons a as ih =>
    have hfirst := hstep s a
    have hrest := ih (step s a)
    simp only [gathered, List.foldl_cons, List.map_cons, List.sum_cons]
    omega

end Gathered

/-! ## Tables -/

section Table

variable {σ α κ : Type*} [DecidableEq κ] {step : σ → α → σ} {w : σ → α → Nat}

def tableStep (step : σ → α → σ) (t : κ → σ) (e : κ × α) : κ → σ :=
  Function.update t e.1 (step (t e.1) e.2)

/-- The events of the key `k`. -/
def eventsOf (k : κ) (es : List (κ × α)) : List α := (es.filter (·.1 = k)).map Prod.snd

theorem eventsOf_cons_self (k : κ) (a : α) (es : List (κ × α)) :
    eventsOf k ((k, a) :: es) = a :: eventsOf k es := by
  simp [eventsOf]

theorem eventsOf_cons_ne {k : κ} {e : κ × α} (h : e.1 ≠ k) (es : List (κ × α)) :
    eventsOf k (e :: es) = eventsOf k es := by
  simp [eventsOf, h]

theorem table_slot (t : κ → σ) (es : List (κ × α)) (k : κ) :
    es.foldl (tableStep step) t k = (eventsOf k es).foldl step (t k) := by
  induction es generalizing t with
  | nil => rfl
  | cons e es ih =>
    rw [List.foldl_cons, ih]
    by_cases hk : e.1 = k
    · obtain ⟨k', a⟩ := e
      obtain rfl : k' = k := hk
      rw [eventsOf_cons_self, List.foldl_cons]
      simp [tableStep]
    · rw [eventsOf_cons_ne hk]
      simp [tableStep, Function.update_of_ne (Ne.symm hk)]

theorem gathered_table [Fintype κ] (t : κ → σ) (es : List (κ × α)) :
    gathered (tableStep step) (fun t e => w (t e.1) e.2) t es =
      ∑ k, gathered step w (t k) (eventsOf k es) := by
  induction es generalizing t with
  | nil => simp [gathered, eventsOf]
  | cons e es ih =>
    obtain ⟨k, a⟩ := e
    simp only [gathered]
    rw [ih, ← Finset.add_sum_erase _ _ (Finset.mem_univ k),
      ← Finset.add_sum_erase _ (fun k' => gathered step w (t k') (eventsOf k' ((k, a) :: es)))
        (Finset.mem_univ k)]
    have hself : tableStep step t (k, a) k = step (t k) a := Function.update_self _ _ _
    have hrest : ∀ k' ∈ Finset.univ.erase k,
        gathered step w (tableStep step t (k, a) k') (eventsOf k' es) =
          gathered step w (t k') (eventsOf k' ((k, a) :: es)) := by
      intro k' hk'
      have hne := Finset.ne_of_mem_erase hk'
      have hother : tableStep step t (k, a) k' = t k' := Function.update_of_ne hne _ _
      have hkey : (k, a).1 ≠ k' := hne.symm
      rw [hother, eventsOf_cons_ne hkey]
    rw [Finset.sum_congr rfl hrest, hself, eventsOf_cons_self]
    simp only [gathered]
    omega

end Table

/-! ## Counters -/

section Counter

variable {top : Nat}

def saturate (top c : Nat) (up : Bool) : Nat :=
  if up then if c < top then c + 1 else c
  else if c > 0 then c - 1 else c

theorem saturate_le {c : Nat} (hc : c ≤ top) (up : Bool) : saturate top c up ≤ top := by
  unfold saturate
  cases up
  · simp only [Bool.false_eq_true, if_false]
    split <;> omega
  · simp only [if_true]
    split <;> omega

theorem saturates_le {c : Nat} (hc : c ≤ top) (ups : List Bool) :
    ups.foldl (saturate top) c ≤ top := by
  induction ups generalizing c with
  | nil => exact hc
  | cons up ups ih => exact ih (saturate_le hc up)

theorem saturate_false (top c : Nat) : saturate top c false = c - 1 := by
  unfold saturate
  simp only [Bool.false_eq_true, if_false]
  split <;> omega

theorem saturate_true (top c : Nat) :
    min top (c + 1) ≤ saturate top c true ∧ saturate top c true ≤ c + 1 := by
  unfold saturate
  simp only [if_true]
  split <;> omega

/-- The outcomes `true` lift the counter, in whatever order they come. -/
theorem le_saturates (top c : Nat) (ups : List Bool) :
    min top (c + ups.count true) ≤ ups.foldl (saturate top) c + ups.count false := by
  induction ups generalizing c with
  | nil => simp
  | cons up ups ih =>
    have hrest := ih (saturate top c up)
    rw [List.foldl_cons]
    cases up
    · rw [List.count_cons_self, List.count_cons_of_ne (by decide)]
      rw [saturate_false] at hrest ⊢
      omega
    · rw [List.count_cons_self, List.count_cons_of_ne (by decide)]
      obtain ⟨hlow, hhigh⟩ := saturate_true top c
      omega

/-- The outcomes `false` lower it. -/
theorem saturates_le_count (top c : Nat) (ups : List Bool) :
    ups.foldl (saturate top) c ≤ ups.count true + (c - ups.count false) := by
  induction ups generalizing c with
  | nil => simp
  | cons up ups ih =>
    have hrest := ih (saturate top c up)
    rw [List.foldl_cons]
    cases up
    · rw [List.count_cons_self, List.count_cons_of_ne (by decide)]
      rw [saturate_false] at hrest ⊢
      omega
    · rw [List.count_cons_self, List.count_cons_of_ne (by decide)]
      obtain ⟨hlow, hhigh⟩ := saturate_true top c
      omega

/-- From `half` on the counter predicts `true`. -/
def wrong (half c : Nat) (up : Bool) : Nat := if decide (c ≥ half) ≠ up then 1 else 0

/-- `φ` is what is left to learn; an outcome `b` costs its own misprediction, and one more later. -/
theorem wrong_le_of {half : Nat} (b : Bool) (φ : Nat → Nat)
    (hstep : ∀ c up, wrong half c up + φ (saturate top c up) ≤ φ c + if up = b then 2 else 0)
    (c : Nat) (ups : List Bool) :
    gathered (saturate top) (wrong half) c ups ≤ φ c + 2 * ups.count b := by
  have hcost : (ups.map fun up => if up = b then 2 else 0).sum = 2 * ups.count b := by
    induction ups with
    | nil => rfl
    | cons up ups ih =>
      rw [List.map_cons, List.sum_cons, ih]
      cases up <;> cases b <;> simp <;> omega
  have hle := gathered_le hstep c ups
  rw [hcost] at hle
  omega

theorem wrong_le_false {half : Nat} (htop : half ≤ top) (c : Nat) (ups : List Bool) :
    gathered (saturate top) (wrong half) c ups ≤ (half - c) + 2 * ups.count false := by
  refine wrong_le_of false (fun c => half - c) (fun c up => ?_) c ups
  unfold wrong saturate
  cases up
  · by_cases hc : c ≥ half <;> by_cases h0 : c > 0 <;> simp [hc, h0] <;> omega
  · by_cases hc : c ≥ half <;> by_cases hlt : c < top <;> simp [hc, hlt] <;> omega

theorem wrong_le_true {half : Nat} (hhalf : 0 < half) (c : Nat) (ups : List Bool) :
    gathered (saturate top) (wrong half) c ups ≤ (c + 1 - half) + 2 * ups.count true := by
  refine wrong_le_of true (fun c => c + 1 - half) (fun c up => ?_) c ups
  unfold wrong saturate
  cases up
  · by_cases hc : c ≥ half <;> by_cases h0 : c > 0 <;> simp [hc, h0] <;> omega
  · by_cases hc : c ≥ half <;> by_cases hlt : c < top <;> simp [hc, hlt] <;> omega

theorem wrong_le (top half : Nat) (hhalf : 0 < half) (htop : half ≤ top) (c : Nat)
    (ups : List Bool) :
    gathered (saturate top) (wrong half) c ups ≤
      min ((half - c) + 2 * ups.count false) ((c + 1 - half) + 2 * ups.count true) :=
  le_min (wrong_le_false htop c ups) (wrong_le_true hhalf c ups)

end Counter

end Lib
end ChampSim
