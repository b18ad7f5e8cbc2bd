import ChampSim.Lib.Saturating

/-!
# ChampSim.Branch.Bimodal

The bimodal predictor (`branch/bimodal.bpred`), for one core: a table of counters, one for the
branches of equal address modulo a prime.

* `predictBranch`, `lastBranchResult` — the functions of these names.
* `branch`         — a branch is predicted and then resolved.
* `branch_eq`      — it moves the counter of its address.
* `bimodal_learns` — a counter is the saturated sum of the outcomes at it, and the mispredictions are
  bounded, counter by counter, by the outcomes of the rarer kind.
-/

namespace ChampSim
namespace Branch
namespace Bimodal

open Lib

def bimodalTableSize : Nat := 16384
def bimodalPrime : Nat := 16381
def maxCounter : Nat := 3

abbrev Table := Fin bimodalTableSize → Nat

def initializeBranchPredictor : Table := fun _ => 0

/-- The last three counters are never used. -/
def hash (ip : Nat) : Fin bimodalTableSize :=
  ⟨ip % bimodalPrime, (Nat.mod_lt ip (by decide)).trans (by decide)⟩

def predictBranch (t : Table) (ip : Nat) : Bool := decide (t (hash ip) ≥ (maxCounter + 1) / 2)

def lastBranchResult (t : Table) (ip : Nat) (taken : Bool) : Table :=
  if taken ∧ t (hash ip) < maxCounter then Function.update t (hash ip) (t (hash ip) + 1)
  else if taken = false ∧ t (hash ip) > 0 then Function.update t (hash ip) (t (hash ip) - 1)
  else t

def branch (t : Table) (b : Nat × Bool) : Table := lastBranchResult t b.1 b.2

def mispredicted (t : Table) (b : Nat × Bool) : Nat :=
  if predictBranch t b.1 ≠ b.2 then 1 else 0

/-- The mispredictions of a sequence of branches. -/
def mispredictions (bs : List (Nat × Bool)) : Nat :=
  gathered branch mispredicted initializeBranchPredictor bs

/-- The counter that a branch meets, and its outcome. -/
def event (b : Nat × Bool) : Fin bimodalTableSize × Bool := (hash b.1, b.2)

theorem branch_eq (t : Table) (b : Nat × Bool) :
    branch t b = tableStep (saturate maxCounter) t (event b) := by
  obtain ⟨ip, taken⟩ := b
  unfold branch lastBranchResult tableStep event saturate
  cases taken
  · by_cases h0 : t (hash ip) > 0 <;> simp [h0]
  · by_cases hlt : t (hash ip) < maxCounter <;> simp [hlt]

theorem mispredicted_eq (t : Table) (b : Nat × Bool) :
    mispredicted t b = wrong 2 (t (event b).1) (event b).2 := rfl

theorem run_eq (t : Table) (bs : List (Nat × Bool)) :
    bs.foldl branch t = (bs.map event).foldl (tableStep (saturate maxCounter)) t := by
  induction bs generalizing t with
  | nil => rfl
  | cons b bs ih =>
    rw [List.foldl_cons, List.map_cons, List.foldl_cons, ← branch_eq]
    exact ih _

theorem gathered_eq (t : Table) (bs : List (Nat × Bool)) : gathered branch mispredicted t bs =
    gathered (tableStep (saturate maxCounter)) (fun t e => wrong 2 (t e.1) e.2) t
      (bs.map event) := by
  induction bs generalizing t with
  | nil => rfl
  | cons b bs ih =>
    simp only [List.map_cons, gathered]
    rw [ih, branch_eq, mispredicted_eq]

/-- After any branches, each counter is the saturated sum of the outcomes at it; all together the
branches are mispredicted no more often than the rarer outcomes of each counter allow. -/
theorem bimodal_learns (bs : List (Nat × Bool)) :
    (∀ h, bs.foldl branch initializeBranchPredictor h =
        (eventsOf h (bs.map event)).foldl (saturate maxCounter) 0 ∧
      bs.foldl branch initializeBranchPredictor h ≤ maxCounter) ∧
    mispredictions bs ≤ ∑ h, min (2 + 2 * (eventsOf h (bs.map event)).count false)
      (2 * (eventsOf h (bs.map event)).count true) := by
  have hslot : ∀ h, bs.foldl branch initializeBranchPredictor h =
      (eventsOf h (bs.map event)).foldl (saturate maxCounter) 0 := by
    intro h
    rw [run_eq, table_slot]
    rfl
  refine ⟨fun h => ⟨hslot h, ?_⟩, ?_⟩
  · rw [hslot]
    exact saturates_le (Nat.zero_le _) _
  · unfold mispredictions
    rw [gathered_eq, gathered_table]
    refine Finset.sum_le_sum fun h _ => ?_
    have hle := wrong_le maxCounter 2 (by decide) (by decide) 0 (eventsOf h (bs.map event))
    simpa [initializeBranchPredictor] using hle

end Bimodal
end Branch
end ChampSim
