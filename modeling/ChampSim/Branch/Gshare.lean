import ChampSim.Lib.Saturating
import ChampSim.Branch.HashedPerceptron

/-!
# ChampSim.Branch.Gshare

The gshare predictor (`branch/gshare.bpred`), for one core: a table of counters indexed by the
address and the last 14 outcomes.

* `gsTableHash`, `predictBranch`, `lastBranchResult` — the functions of these names.
* `shiftHistory`   — the update of the history, which is the last outcomes (`history_exact`).
* `events`         — the counters that a sequence of branches meets, with the outcomes.
* `run_table`      — the table of a run is that of its events.
* `gshare_learns`  — history, indices and counters are exact, and the mispredictions are bounded,
  counter by counter.
-/

namespace ChampSim
namespace Branch
namespace Gshare

open Lib
open HashedPerceptron (past now_past outcomes outcomes_concat)

def globalHistoryLength : Nat := 14
def globalHistoryMask : Nat := 1 <<< globalHistoryLength - 1
def gsHistoryTableSize : Nat := 16384

structure Predictor where
  branchHistoryVector : Nat
  gsHistoryTable : Fin gsHistoryTableSize → Nat
  myLastPrediction : Bool

/-- 2 is slightly taken. -/
def initializeBranchPredictor : Predictor where
  branchHistoryVector := 0
  gsHistoryTable := fun _ => 2
  myLastPrediction := false

/-- `hash` is an `unsigned int`. -/
def gsTableHash (ip bhVector : Nat) : Fin gsHistoryTableSize :=
  ⟨(ip ^^^ (ip >>> globalHistoryLength) ^^^ (ip >>> (globalHistoryLength * 2)) ^^^ bhVector) % 2 ^ 32 %
    gsHistoryTableSize, Nat.mod_lt _ (by decide)⟩

def predictBranch (s : Predictor) (ip : Nat) : Predictor × Bool :=
  let gsHash := gsTableHash ip s.branchHistoryVector
  let prediction := decide (s.gsHistoryTable gsHash ≥ 2)
  ({ s with myLastPrediction := prediction }, prediction)

def shiftHistory (history : Nat) (taken : Bool) : Nat :=
  (history <<< 1 &&& globalHistoryMask) ||| taken.toNat

def lastBranchResult (s : Predictor) (ip : Nat) (taken : Bool) : Predictor :=
  let gsHash := gsTableHash ip s.branchHistoryVector
  let c := s.gsHistoryTable gsHash
  let c := if taken then if c < 3 then c + 1 else c else if c > 0 then c - 1 else c
  { s with
    gsHistoryTable := Function.update s.gsHistoryTable gsHash c
    branchHistoryVector := shiftHistory s.branchHistoryVector taken }

/-- A branch is predicted and then resolved. -/
def branch (s : Predictor) (b : Nat × Bool) : Predictor :=
  lastBranchResult (predictBranch s b.1).1 b.1 b.2

def mispredicted (s : Predictor) (b : Nat × Bool) : Nat :=
  if (predictBranch s b.1).2 ≠ b.2 then 1 else 0

def mispredictions (bs : List (Nat × Bool)) : Nat :=
  gathered branch mispredicted initializeBranchPredictor bs

def events : Nat → List (Nat × Bool) → List (Fin gsHistoryTableSize × Bool)
  | _, [] => []
  | history, b :: bs => (gsTableHash b.1 history, b.2) :: events (shiftHistory history b.2) bs

/-! ### The history -/

theorem globalHistoryMask_eq : globalHistoryMask = 2 ^ 14 - 1 := by decide

theorem shiftHistory_lt (history : Nat) (taken : Bool) : shiftHistory history taken < 2 ^ 14 := by
  unfold shiftHistory
  rw [globalHistoryMask_eq]
  refine Nat.or_lt_two_pow ?_ ?_
  · exact Nat.and_lt_two_pow _ (by decide)
  · cases taken <;> decide

theorem shiftHistory_testBit (history : Nat) (taken : Bool) {k : Nat} (hk : k < 14) :
    (shiftHistory history taken).testBit k = Register.now taken history.testBit k := by
  unfold shiftHistory
  rw [globalHistoryMask_eq, Nat.testBit_or, Nat.testBit_and, Nat.testBit_two_pow_sub_one,
    ← Register.testBit_shiftIn, Nat.testBit_or]
  simp [hk]

theorem history_exact (bs : List (Nat × Bool)) :
    (bs.foldl branch initializeBranchPredictor).branchHistoryVector < 2 ^ 14 ∧
      ∀ k < 14, (bs.foldl branch initializeBranchPredictor).branchHistoryVector.testBit k =
        past (outcomes bs) k := by
  induction bs using List.reverseRecOn with
  | nil =>
    refine ⟨by decide, fun k _ => ?_⟩
    simp [initializeBranchPredictor, past, outcomes]
  | append_singleton bs b ih =>
    rw [List.foldl_append, outcomes_concat, ← now_past]
    refine ⟨shiftHistory_lt _ _, fun k hk => ?_⟩
    refine (shiftHistory_testBit _ _ hk).trans ?_
    cases k with
    | zero => rfl
    | succ k => exact ih.2 k (by omega)

/-- The index folds the address to 14 bits, and joins the history. -/
theorem gsTableHash_testBit (ip history : Nat) {k : Nat} (hk : k < 14) :
    (gsTableHash ip history).val.testBit k =
      (ip.testBit k ^^ ip.testBit (14 + k) ^^ ip.testBit (28 + k) ^^ history.testBit k) := by
  have hsize : gsHistoryTableSize = 2 ^ 14 := by decide
  show (_ % 2 ^ 32 % gsHistoryTableSize).testBit k = _
  rw [hsize, Nat.testBit_mod_two_pow, Nat.testBit_mod_two_pow]
  simp only [Nat.testBit_xor, Nat.testBit_shiftRight, globalHistoryLength]
  have hk32 : k < 32 := by omega
  simp [hk, hk32]

/-! ### The counters -/

theorem branch_table (s : Predictor) (b : Nat × Bool) : (branch s b).gsHistoryTable =
    tableStep (saturate 3) s.gsHistoryTable (gsTableHash b.1 s.branchHistoryVector, b.2) := rfl

theorem branch_history (s : Predictor) (b : Nat × Bool) :
    (branch s b).branchHistoryVector = shiftHistory s.branchHistoryVector b.2 := rfl

theorem run_table (s : Predictor) (bs : List (Nat × Bool)) : (bs.foldl branch s).gsHistoryTable =
    (events s.branchHistoryVector bs).foldl (tableStep (saturate 3)) s.gsHistoryTable := by
  induction bs generalizing s with
  | nil => rfl
  | cons b bs ih =>
    rw [List.foldl_cons, ih, events, List.foldl_cons, branch_table, branch_history]

theorem gathered_eq (s : Predictor) (bs : List (Nat × Bool)) : gathered branch mispredicted s bs =
    gathered (tableStep (saturate 3)) (fun t e => wrong 2 (t e.1) e.2) s.gsHistoryTable
      (events s.branchHistoryVector bs) := by
  induction bs generalizing s with
  | nil => rfl
  | cons b bs ih =>
    simp only [events, gathered]
    rw [ih, branch_table, branch_history]
    rfl

/-- After any branches the history is the last 14 outcomes, the next branch is looked up at its
folded address joined with them, each counter is the saturated sum of the outcomes at it, and the
branches are mispredicted no more often than the rarer outcomes of each counter allow. -/
theorem gshare_learns (bs : List (Nat × Bool)) :
    (∀ ip k, k < 14 → (gsTableHash ip
        (bs.foldl branch initializeBranchPredictor).branchHistoryVector).val.testBit k =
      (ip.testBit k ^^ ip.testBit (14 + k) ^^ ip.testBit (28 + k) ^^ past (outcomes bs) k)) ∧
    (∀ h, (bs.foldl branch initializeBranchPredictor).gsHistoryTable h =
        (eventsOf h (events 0 bs)).foldl (saturate 3) 2 ∧
      (bs.foldl branch initializeBranchPredictor).gsHistoryTable h ≤ 3) ∧
    mispredictions bs ≤ ∑ h, min (2 * (eventsOf h (events 0 bs)).count false)
      (1 + 2 * (eventsOf h (events 0 bs)).count true) := by
  have hslot : ∀ h, (bs.foldl branch initializeBranchPredictor).gsHistoryTable h =
      (eventsOf h (events 0 bs)).foldl (saturate 3) 2 := by
    intro h
    rw [run_table, table_slot]
    rfl
  refine ⟨fun ip k hk => ?_, fun h => ⟨hslot h, ?_⟩, ?_⟩
  · rw [gsTableHash_testBit ip _ hk, (history_exact bs).2 k hk]
  · rw [hslot]
    exact saturates_le (by decide) _
  · unfold mispredictions
    rw [gathered_eq, gathered_table]
    refine Finset.sum_le_sum fun h _ => ?_
    have hle := wrong_le 3 2 (by decide) (by decide) 2 (eventsOf h (events 0 bs))
    simpa [initializeBranchPredictor] using hle

end Gshare
end Branch
end ChampSim
