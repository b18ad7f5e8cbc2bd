import ChampSim.Branch.HashedPerceptron
import Mathlib.Algebra.BigOperators.Fin

/-!
# ChampSim.Branch.Perceptron

The perceptron predictor (`branch/perceptron.bpred`), for one core. A prediction reads and moves the
speculative history, and leaves what training needs in a buffer of 100 entries, to which `u` points;
a result moves the real history and trains through that pointer.

* `predictBranch`    — `predict_branch`.
* `lastBranchResult` — `last_branch_result`; `none` when it follows a null pointer.
* `Sound`            — both histories are the outcomes, and the weights are in range.
* `branch_exact`     — what the branch after a sound state does to the weights.
* `histories_agree`  — every state that a sequence of branches leads to is sound, and the next
  output is made from the outcomes.
-/

namespace ChampSim
namespace Branch
namespace Perceptron

open Lib
open HashedPerceptron (past now_past outcomes outcomes_concat)

def perceptronHistory : Nat := 24
def numPerceptrons : Nat := 163
def perceptronBits : Nat := 8
def maxWeight : Int := 2 ^ (perceptronBits - 1) - 1
def minWeight : Int := -(maxWeight + 1)

/-- `(int) (1.93 * PERCEPTRON_HISTORY + 14)` -/
def theta : Int := (193 * perceptronHistory + 1400) / 100

def numUpdateEntries : Nat := 100

/-- Weight 0 is the bias. -/
abbrev Weights := Fin (perceptronHistory + 1) → Int

structure PerceptronState where
  dummyCounter : Nat
  prediction : Bool
  output : Int
  history : Nat
  perc : Option (Fin numPerceptrons)

structure Predictor where
  perceptrons : Fin numPerceptrons → Weights
  perceptronStateBuf : Fin numUpdateEntries → PerceptronState
  perceptronStateBufCtr : Fin numUpdateEntries
  specGlobalHistory : Nat
  globalHistory : Nat
  u : Option (Fin numUpdateEntries)

def initializePerceptron : Weights := fun _ => 0

/-- The buffer and `u` are left as they are. -/
def initializeBranchPredictor (s : Predictor) : Predictor :=
  { s with
    specGlobalHistory := 0
    globalHistory := 0
    perceptronStateBufCtr := ⟨0, by decide⟩
    perceptrons := fun _ => initializePerceptron }

/-- `history <<= 1; history |= bit`, on 64 bits. -/
def shiftIn (history : Nat) (bit : Bool) : Nat := (history <<< 1 ||| bit.toNat) % 2 ^ 64

/-! ### `predict_branch` -/

def percIndex (ip : Nat) : Fin numPerceptrons := ⟨ip % numPerceptrons, Nat.mod_lt ip (by decide)⟩

def dotProduct (history : Nat) (w : Weights) : Int :=
  Register.forBits perceptronHistory
    (fun output i bit => if bit then output + w i.succ else output + -w i.succ) history (w 0)

/-- The counter after `perceptron_state_buf_ctr++`, which wraps. -/
def nextEntry (ctr : Fin numUpdateEntries) : Fin numUpdateEntries :=
  if h : ctr + 1 < numUpdateEntries then ⟨ctr + 1, h⟩ else ⟨0, by decide⟩

def predictBranch (ip : Nat) (s : Predictor) : Predictor × Bool :=
  let p := percIndex ip
  let output := dotProduct s.specGlobalHistory (s.perceptrons p)
  let prediction := decide (output ≥ 0)
  let entry : PerceptronState :=
    { dummyCounter := if prediction then 3 else 0
      prediction := prediction
      output := output
      history := s.specGlobalHistory
      perc := some p }
  ({ s with
      u := some s.perceptronStateBufCtr
      perceptronStateBuf := Function.update s.perceptronStateBuf s.perceptronStateBufCtr entry
      perceptronStateBufCtr := nextEntry s.perceptronStateBufCtr
      specGlobalHistory := shiftIn s.specGlobalHistory prediction },
    prediction)

/-! ### `last_branch_result` -/

/-- The bias moves with the outcome, and is saturated on both sides. -/
def trainBias (taken : Bool) (w : Int) : Int :=
  let w := if taken then w + 1 else w - 1
  let w := if w > maxWeight then maxWeight else w
  if w < minWeight then minWeight else w

def trainWeight (correlates : Bool) (w : Int) : Int :=
  if correlates then (if w + 1 > maxWeight then maxWeight else w + 1)
  else if w - 1 < minWeight then minWeight else w - 1

def train (taken : Bool) (history : Nat) (w : Weights) : Weights :=
  Register.forBits perceptronHistory
    (fun w i bit => Function.update w i.succ (trainWeight (bit == taken) (w i.succ))) history
    (Function.update w 0 (trainBias taken (w 0)))

/-- What `u` points to. -/
def Predictor.entry (s : Predictor) : Option PerceptronState := s.u.map s.perceptronStateBuf

def lastBranchResult (taken : Bool) (s : Predictor) : Option Predictor := do
  let globalHistory := shiftIn s.globalHistory taken
  let entry ← s.entry
  let s := { s with
    globalHistory := globalHistory
    specGlobalHistory := if entry.prediction != taken then globalHistory else s.specGlobalHistory }
  let y := if entry.output > theta then 1 else if entry.output < -theta then 0 else 2
  if y == 1 && taken then return s
  if y == 0 && !taken then return s
  let p ← entry.perc
  return { s with
    perceptrons := Function.update s.perceptrons p (train taken entry.history (s.perceptrons p)) }

/-- A branch is predicted and then resolved. -/
def branch (s : Predictor) (b : Nat × Bool) : Option Predictor :=
  lastBranchResult b.2 (predictBranch b.1 s).1

example : theta = 60 := by decide

/-! ### The loops over the history -/

theorem dotProduct_eq (history : Nat) (w : Weights) : dotProduct history w =
    w 0 + ∑ i : Fin perceptronHistory, if history.testBit i then w i.succ else -w i.succ := by
  let g : Fin perceptronHistory → Int := fun i =>
    if history.testBit i then w i.succ else -w i.succ
  let P : Nat → Int → Prop := fun m x =>
    ∀ hm : m ≤ perceptronHistory, x = w 0 + ∑ i : Fin m, g (i.castLE hm)
  have hstart : P 0 (w 0) := by
    intro _
    rw [Fin.sum_univ_zero, add_zero]
  have hstep : ∀ (i : Fin perceptronHistory) (x : Int), P i x →
      P (i + 1) (if history.testBit i then x + w i.succ else x + -w i.succ) := by
    intro i x hx hm
    have hlast : g ((Fin.last i).castLE hm) = if history.testBit i then w i.succ else -w i.succ :=
      rfl
    rw [Fin.sum_univ_castSucc, hlast, ← add_assoc]
    split_ifs
    · exact congrArg (· + w i.succ) (hx (by omega))
    · exact congrArg (· + -w i.succ) (hx (by omega))
  exact Register.forBits_invariant hstart hstep le_rfl

theorem train_zero (taken : Bool) (history : Nat) (w : Weights) :
    train taken history w 0 = trainBias taken (w 0) := by
  refine Register.forBits_invariant (P := fun _ (v : Weights) => v 0 = trainBias taken (w 0)) ?_ ?_
  · rw [Function.update_self]
  · intro i v hv
    rw [Function.update_of_ne (Fin.succ_ne_zero i).symm, hv]

theorem train_succ (taken : Bool) (history : Nat) (w : Weights) (i : Fin perceptronHistory) :
    train taken history w i.succ = trainWeight (history.testBit i == taken) (w i.succ) := by
  let P : Nat → Weights → Prop := fun m v => ∀ j : Fin perceptronHistory,
    v j.succ = if j < m then trainWeight (history.testBit j == taken) (w j.succ) else w j.succ
  have hstart : P 0 (Function.update w 0 (trainBias taken (w 0))) := by
    intro j
    rw [Function.update_of_ne (Fin.succ_ne_zero j), if_neg (Nat.not_lt_zero _)]
  have hstep : ∀ (k : Fin perceptronHistory) (v : Weights), P k v → P (k + 1)
      (Function.update v k.succ (trainWeight (history.testBit k == taken) (v k.succ))) := by
    intro k v hv j
    rcases eq_or_ne j k with rfl | hjk
    · rw [Function.update_self, hv j, if_neg (lt_irrefl _), if_pos (Nat.lt_succ_self _)]
    · have hlt : (j : Nat) < k + 1 ↔ (j : Nat) < k := by
        have hne : (j : Nat) ≠ k := fun h => hjk (Fin.ext h)
        omega
      rw [Function.update_of_ne (fun h => hjk (Fin.succ_injective _ h)), hv j]
      simp only [hlt]
  have hall : P perceptronHistory (train taken history w) :=
    Register.forBits_invariant hstart hstep
  rw [hall i, if_pos i.isLt]

theorem trainBias_range (taken : Bool) (w : Int) :
    minWeight ≤ trainBias taken w ∧ trainBias taken w ≤ maxWeight := by
  have hmin : minWeight = -128 := by decide
  have hmax : maxWeight = 127 := by decide
  simp only [trainBias]
  split_ifs <;> omega

theorem trainWeight_range {correlates : Bool} {w : Int} (h : minWeight ≤ w ∧ w ≤ maxWeight) :
    minWeight ≤ trainWeight correlates w ∧ trainWeight correlates w ≤ maxWeight := by
  have hmin : minWeight = -128 := by decide
  have hmax : maxWeight = 127 := by decide
  unfold trainWeight
  split_ifs <;> omega

/-! ### One branch -/

/-- The output of a perceptron on the latest outcomes. -/
def signedSum (hist : List Bool) (w : Weights) : Int :=
  w 0 + ∑ i : Fin perceptronHistory, if past hist i then w i.succ else -w i.succ

/-- Nothing is learned from an output beyond the threshold that had the right sign. -/
def Learns (taken : Bool) (output : Int) : Prop :=
  ¬ (theta < output ∧ taken = true) ∧ ¬ (output < -theta ∧ taken = false)

instance Learns.decidable (taken : Bool) (output : Int) : Decidable (Learns taken output) :=
  inferInstanceAs (Decidable (_ ∧ _))

/-- The bias moves with the outcome, every other weight with the agreement of the two outcomes. -/
def trained (taken : Bool) (hist : List Bool) (w : Weights) : Weights :=
  Fin.cases (trainBias taken (w 0)) fun i => trainWeight (past hist i == taken) (w i.succ)

/-- The state after the branches of `hist`. -/
structure Sound (hist : List Bool) (s : Predictor) : Prop where
  history : s.globalHistory < 2 ^ 64 ∧ ∀ k < 64, s.globalHistory.testBit k = past hist k
  spec : s.specGlobalHistory = s.globalHistory
  weights : ∀ p i, minWeight ≤ s.perceptrons p i ∧ s.perceptrons p i ≤ maxWeight

section Step

variable {hist : List Bool} {s : Predictor}

theorem holds_word {history : Nat} : Register.Holds 64 (past hist) [history] ↔
    history < 2 ^ 64 ∧ ∀ k < 64, history.testBit k = past hist k := by
  rw [Register.holds_cons]
  exact and_iff_left Register.holds_nil

theorem shiftIn_past {history : Nat} (bit : Bool)
    (h : history < 2 ^ 64 ∧ ∀ k < 64, history.testBit k = past hist k) :
    shiftIn history bit < 2 ^ 64 ∧
      ∀ k < 64, (shiftIn history bit).testBit k = past (bit :: hist) k := by
  rw [← holds_word] at h ⊢
  rw [← now_past]
  exact Register.push_holds (by decide) h

theorem Sound.testBit (h : Sound hist s) (i : Fin perceptronHistory) :
    s.globalHistory.testBit i = past hist i :=
  h.history.2 i (i.isLt.trans (by decide))

theorem Sound.dotProduct (h : Sound hist s) (w : Weights) :
    dotProduct s.specGlobalHistory w = signedSum hist w := by
  rw [dotProduct_eq, signedSum, h.spec]
  simp only [h.testBit]

theorem Sound.train (h : Sound hist s) (taken : Bool) (w : Weights) :
    train taken s.specGlobalHistory w = trained taken hist w := by
  funext i
  cases i using Fin.cases with
  | zero => exact train_zero taken _ w
  | succ i =>
    rw [train_succ, h.spec, h.testBit]
    rfl

theorem trained_range (taken : Bool) {w : Weights}
    (h : ∀ i, minWeight ≤ w i ∧ w i ≤ maxWeight) (i : Fin (perceptronHistory + 1)) :
    minWeight ≤ trained taken hist w i ∧ trained taken hist w i ≤ maxWeight := by
  cases i using Fin.cases with
  | zero => exact trainBias_range taken (w 0)
  | succ i => exact trainWeight_range (h i.succ)

theorem entry_predictBranch (ip : Nat) (s : Predictor) :
    (predictBranch ip s).1.entry = some
      { dummyCounter := if (predictBranch ip s).2 then 3 else 0
        prediction := (predictBranch ip s).2
        output := dotProduct s.specGlobalHistory (s.perceptrons (percIndex ip))
        history := s.specGlobalHistory
        perc := some (percIndex ip) } := by
  show some (Function.update s.perceptronStateBuf s.perceptronStateBufCtr _ _) = _
  rw [Function.update_self]
  rfl

theorem lastBranchResult_eq (taken : Bool) {entry : PerceptronState} {p : Fin numPerceptrons}
    (hentry : s.entry = some entry) (hp : entry.perc = some p) :
    lastBranchResult taken s = some { s with
      globalHistory := shiftIn s.globalHistory taken
      specGlobalHistory :=
        if entry.prediction != taken then shiftIn s.globalHistory taken else s.specGlobalHistory
      perceptrons :=
        if Learns taken entry.output then
          Function.update s.perceptrons p (train taken entry.history (s.perceptrons p))
        else s.perceptrons } := by
  have htheta : theta = 60 := by decide
  rw [lastBranchResult, hentry]
  simp only [Option.bind_eq_bind, Option.bind_some, hp, Learns, htheta]
  by_cases hhigh : entry.output > 60
  · have hlow : ¬ entry.output < -60 := by omega
    cases taken <;> simp [hhigh, hlow]
  · by_cases hlow : entry.output < -60
    · cases taken <;> simp [hhigh, hlow]
    · simp [hhigh, hlow]

theorem branch_eq (s : Predictor) (ip : Nat) (taken : Bool) :
    branch s (ip, taken) = some { (predictBranch ip s).1 with
      globalHistory := shiftIn s.globalHistory taken
      specGlobalHistory :=
        if (predictBranch ip s).2 != taken then shiftIn s.globalHistory taken
        else shiftIn s.specGlobalHistory (predictBranch ip s).2
      perceptrons :=
        if Learns taken (dotProduct s.specGlobalHistory (s.perceptrons (percIndex ip))) then
          Function.update s.perceptrons (percIndex ip)
            (train taken s.specGlobalHistory (s.perceptrons (percIndex ip)))
        else s.perceptrons } := by
  rw [branch, lastBranchResult_eq taken (entry_predictBranch ip s) rfl]
  rfl

/-- A right prediction has already shifted in the outcome; after a wrong one the speculative history
is the real one. -/
theorem Sound.step (h : Sound hist s) (ip : Nat) (taken : Bool) :
    ∃ t, branch s (ip, taken) = some t ∧ Sound (taken :: hist) t ∧
      t.perceptrons =
        if Learns taken (signedSum hist (s.perceptrons (percIndex ip))) then
          Function.update s.perceptrons (percIndex ip)
            (trained taken hist (s.perceptrons (percIndex ip)))
        else s.perceptrons := by
  refine ⟨_, branch_eq s ip taken, ?_, ?_⟩
  · constructor
    case history => exact shiftIn_past taken h.history
    case spec =>
      dsimp only
      rcases eq_or_ne (predictBranch ip s).2 taken with hp | hp
      · rw [if_neg (by simpa using hp), hp, h.spec]
      · rw [if_pos (by simpa using hp)]
    case weights =>
      intro p i
      dsimp only
      rw [h.train]
      split_ifs
      · rcases eq_or_ne p (percIndex ip) with rfl | hp
        · rw [Function.update_self]
          exact trained_range taken (h.weights _) i
        · rw [Function.update_of_ne hp]
          exact h.weights p i
      · exact h.weights p i
  · dsimp only
    rw [h.train, h.dotProduct]

end Step

/-! ### Every sequence of branches -/

theorem start_sound (s : Predictor) : Sound [] (initializeBranchPredictor s) where
  history := holds_word.1 (Register.holds_replicate 1)
  spec := rfl
  weights := by
    intro p i
    show minWeight ≤ 0 ∧ 0 ≤ maxWeight
    decide

theorem run_sound (s₀ : Predictor) (branches : List (Nat × Bool)) :
    ∃ s, run branch (initializeBranchPredictor s₀) branches = some s ∧
      Sound (outcomes branches) s := by
  refine run_history (P := fun _ => True) (I := fun bs s => Sound (outcomes bs) s) ?_
    (start_sound s₀) (fun _ _ => trivial)
  intro bs s b _ hI _
  obtain ⟨t, ht, hsound, -⟩ := hI.step b.1 b.2
  refine ⟨t, ht, ?_⟩
  rw [outcomes_concat]
  exact hsound

/-- After every sequence of branches both histories are the outcomes and the weights are in range.
The entry that training reads next has the output on the outcomes, and decides what is trained. -/
theorem histories_agree (s₀ : Predictor) (branches : List (Nat × Bool)) :
    ∃ s, run branch (initializeBranchPredictor s₀) branches = some s ∧
      s.specGlobalHistory = s.globalHistory ∧
      (∀ k < 64, s.globalHistory.testBit k = past (outcomes branches) k) ∧
      (∀ p i, minWeight ≤ s.perceptrons p i ∧ s.perceptrons p i ≤ maxWeight) ∧
      ∀ ip, ∃ entry, (predictBranch ip s).1.entry = some entry ∧
        entry.output = signedSum (outcomes branches) (s.perceptrons (percIndex ip)) ∧
        ∀ taken, (entry.prediction = taken →
            (predictBranch ip s).1.specGlobalHistory = shiftIn s.globalHistory taken) ∧
          ∃ t, branch s (ip, taken) = some t ∧ t.perceptrons =
            if Learns taken entry.output then Function.update s.perceptrons (percIndex ip)
              (trained taken (outcomes branches) (s.perceptrons (percIndex ip)))
            else s.perceptrons := by
  obtain ⟨s, hs, hsound⟩ := run_sound s₀ branches
  refine ⟨s, hs, hsound.spec, hsound.history.2, hsound.weights, fun ip => ?_⟩
  have houtput := hsound.dotProduct (s.perceptrons (percIndex ip))
  refine ⟨_, entry_predictBranch ip s, houtput, fun taken => ⟨?_, ?_⟩⟩
  · rintro rfl
    rw [← hsound.spec]
    rfl
  · obtain ⟨t, ht, -, hweights⟩ := hsound.step ip taken
    refine ⟨t, ht, ?_⟩
    rw [hweights, ← houtput]

end Perceptron
end Branch
end ChampSim
