import ChampSim.Lib.Run
import ChampSim.Lib.Register
import Mathlib.Algebra.BigOperators.Group.List.Basic
import Mathlib.Algebra.Order.Group.Unbundled.Int
import Mathlib.Algebra.Ring.Int.Defs

/-!
# ChampSim.Branch.HashedPerceptron

The hashed perceptron (`branch/hashed_perceptron.bpred`), for one core: 16 tables of weights, each
indexed by the program counter and a hash of the latest outcomes.

* `predictBranch`    — `predict_branch`; `none` when it reads past `ghist_words`.
* `lastBranchResult` — `last_branch_result`, on the sum and the indices of the last prediction.
* `Sound`            — the words are the outcomes, the weights and the threshold stay in range.
* `predict_exact`    — the indices and the sum of a prediction.
* `result_exact`     — the weights that a result trains.
* `history_and_training_exact` — both, after every sequence of branches.
-/

namespace ChampSim
namespace Branch

open Lib

def ntables : Nat := 16
def maxhist : Nat := 232
def speed : Int := 18

def historyLengths : List Nat :=
  [0, 3, 4, 6, 8, 10, 14, 19, 26, 36, 49, 67, 91, 125, 170, maxhist]

def logTableSize : Nat := 12
def tableSize : Nat := 1 <<< logTableSize
def nghistWords : Nat := maxhist / logTableSize + 1

structure HashedPerceptron where
  tables : Nat → Nat → Int
  ghistWords : List Nat
  indices : Nat → Nat
  theta : Int
  tc : Int
  yout : Int

namespace HashedPerceptron

def initializeBranchPredictor : HashedPerceptron where
  tables := fun _ _ => 0
  ghistWords := List.replicate nghistWords 0
  indices := fun _ => 0
  theta := 10
  tc := 0
  yout := 0

/-! ### `predict_branch` -/

/-- Bits `0`, ..., `n - 1` of the history, XORed into one word. -/
def hashHistory (ghistWords : List Nat) (n : Nat) : Option Nat := do
  let x ← (List.range (n / logTableSize)).foldlM
    (fun x j => ghistWords[j]?.map fun word => x ^^^ word) 0
  let word ← ghistWords[n / logTableSize]?
  return x ^^^ (word &&& (1 <<< (n % logTableSize) - 1))

def selectWeight (pc : Nat) (p : HashedPerceptron) (i : Nat) : Option HashedPerceptron := do
  let n ← historyLengths[i]?
  let x ← hashHistory p.ghistWords n
  let x := (x ^^^ pc) &&& (tableSize - 1)
  return { p with indices := Function.update p.indices i x, yout := p.yout + p.tables i x }

def predictBranch (pc : Nat) (p : HashedPerceptron) : Option (HashedPerceptron × Bool) := do
  let p ← (List.range ntables).foldlM (selectWeight pc) { p with yout := 0 }
  return (p, decide (p.yout ≥ 1))

/-! ### `last_branch_result` -/

/-- The loop over `ghist_words`, with the bit carried from word to word. -/
def insertOutcome : Bool → List Nat → List Nat
  | _, [] => []
  | b, word :: words =>
    let word := word <<< 1 ||| b.toNat
    (word &&& (tableSize - 1)) :: insertOutcome (word &&& tableSize != 0) words

def correct (taken : Bool) (p : HashedPerceptron) : Bool := taken == decide (p.yout ≥ 1)

def magnitude (p : HashedPerceptron) : Int := if p.yout < 0 then -p.yout else p.yout

/-- One weight, saturating at 127 and -128. -/
def learn (taken : Bool) (c : Int) : Int :=
  if taken then (if c < 127 then c + 1 else c) else (if c > -128 then c - 1 else c)

def updateWeight (taken : Bool) (p : HashedPerceptron) (i : Nat) : HashedPerceptron :=
  let c := p.tables i (p.indices i)
  { p with tables :=
      Function.update p.tables i (Function.update (p.tables i) (p.indices i) (learn taken c)) }

/-- The dynamic threshold: up after enough mispredictions, down after enough weak predictions. -/
def setThreshold (isCorrect : Bool) (a : Int) (p : HashedPerceptron) : HashedPerceptron :=
  if !isCorrect then
    if p.tc + 1 ≥ speed then { p with theta := p.theta + 1, tc := 0 } else { p with tc := p.tc + 1 }
  else if a < p.theta then
    if p.tc - 1 ≤ -speed then { p with theta := p.theta - 1, tc := 0 } else { p with tc := p.tc - 1 }
  else p

def lastBranchResult (taken : Bool) (p : HashedPerceptron) : HashedPerceptron :=
  let isCorrect := p.correct taken
  let p := { p with ghistWords := insertOutcome taken p.ghistWords }
  let a := p.magnitude
  if !isCorrect || decide (a < p.theta) then
    setThreshold isCorrect a ((List.range ntables).foldl (updateWeight taken) p)
  else p

/-- A branch is predicted and then resolved. -/
def branch (p : HashedPerceptron) (b : Nat × Bool) : Option HashedPerceptron :=
  (predictBranch b.1 p).map fun r => lastBranchResult b.2 r.1

/-! ### The history -/

/-- The outcomes of a history, the latest first; none before the start. -/
def past (hist : List Bool) (t : Nat) : Bool := hist.getD t false

theorem now_past (b : Bool) (hist : List Bool) :
    Register.now b (past hist) = past (b :: hist) := by
  funext t
  cases t <;> rfl

theorem insertOutcome_eq (b : Bool) (words : List Nat) :
    insertOutcome b words = Register.push logTableSize b words := by
  induction words generalizing b with
  | nil => rfl
  | cons word words ih =>
    have hmask : (word <<< 1 ||| b.toNat) &&& (tableSize - 1) =
        (word <<< 1 ||| b.toNat) % 2 ^ logTableSize := by
      rw [tableSize, Nat.one_shiftLeft, Nat.and_two_pow_sub_one_eq_mod]
    have hcarry : ((word <<< 1 ||| b.toNat) &&& tableSize != 0) =
        (word <<< 1 ||| b.toNat).testBit logTableSize := by
      rw [tableSize, Nat.one_shiftLeft, Nat.and_two_pow]
      cases (word <<< 1 ||| b.toNat).testBit logTableSize <;> decide
    simp only [insertOutcome, Register.push, hmask, hcarry, ih]

section History

variable {hist : List Bool} {words : List Nat}

theorem foldlM_words {n m : Nat} (h : Register.Holds logTableSize (past hist) words)
    (hm : m ≤ n / logTableSize) (hlen : n / logTableSize ≤ words.length) :
    (List.range m).foldlM (fun x j => words[j]?.map fun word => x ^^^ word) 0 =
      some ((List.range m).foldl
        (fun x t => x ^^^ Register.chunk logTableSize (past hist) n t) 0) := by
  induction m with
  | zero => rfl
  | succ m ih =>
    obtain ⟨word, hget⟩ : ∃ word, words[m]? = some word :=
      ⟨_, List.getElem?_eq_getElem (by omega)⟩
    rw [List.range_succ, List.foldlM_append, ih (by omega), List.foldl_append]
    simp [hget, Register.chunk_full h hget hm]

theorem hashHistory_eq {n : Nat} (h : Register.Holds logTableSize (past hist) words)
    (hlen : n / logTableSize < words.length) :
    hashHistory words n = some (Register.fold logTableSize (past hist) n) := by
  obtain ⟨word, hget⟩ : ∃ word, words[n / logTableSize]? = some word :=
    ⟨_, List.getElem?_eq_getElem hlen⟩
  have hlast : word &&& (1 <<< (n % logTableSize) - 1) =
      Register.chunk logTableSize (past hist) n (n / logTableSize) := by
    rw [Register.chunk_last (by decide) h hget, Nat.one_shiftLeft, Nat.and_two_pow_sub_one_eq_mod]
  rw [hashHistory, foldlM_words h le_rfl hlen.le, hget, Register.fold, List.range_succ,
    List.foldl_append]
  simp [hlast]

end History

/-- Every length is read within the words. -/
theorem lengths_in_words : ∀ n ∈ historyLengths, n / logTableSize < nghistWords := by
  decide

/-! ### What a prediction does -/

/-- The low bits of `pc`, XORed with the fold of the latest `n` outcomes. -/
def hashIndex (hist : List Bool) (pc n : Nat) : Nat :=
  pc % tableSize ^^^ Register.fold logTableSize (past hist) n

theorem hashIndex_lt (hist : List Bool) (pc n : Nat) : hashIndex hist pc n < tableSize :=
  Nat.xor_lt_two_pow (n := logTableSize) (Nat.mod_lt pc (by decide)) (Register.fold_lt n)

/-- The index of table `i`. -/
def tableIndex (hist : List Bool) (pc i : Nat) : Nat := hashIndex hist pc (historyLengths.getD i 0)

theorem tableIndex_eq {hist : List Bool} {pc i n : Nat} (hn : historyLengths[i]? = some n) :
    tableIndex hist pc i = hashIndex hist pc n := by
  rw [tableIndex, List.getD_eq_getElem?_getD, hn, Option.getD_some]

/-- `p` is `s` after the prediction of the branch at `pc`. -/
structure Predicts (hist : List Bool) (pc : Nat) (s p : HashedPerceptron) : Prop where
  tables : p.tables = s.tables
  ghistWords : p.ghistWords = s.ghistWords
  threshold : p.theta = s.theta ∧ p.tc = s.tc
  indices : ∀ i n, historyLengths[i]? = some n → p.indices i = hashIndex hist pc n
  inTable : ∀ i < ntables, p.indices i < tableSize
  yout : p.yout = ((List.range ntables).map fun i => s.tables i (p.indices i)).sum

section Predict

variable {hist : List Bool} {s : HashedPerceptron}

theorem selectWeight_eq (pc : Nat) {i : Nat}
    (h : Register.Holds logTableSize (past hist) s.ghistWords)
    (hlen : s.ghistWords.length = nghistWords) (hi : i < ntables) :
    selectWeight pc s i = some { s with
      indices := Function.update s.indices i (tableIndex hist pc i)
      yout := s.yout + s.tables i (tableIndex hist pc i) } := by
  obtain ⟨n, hn⟩ : ∃ n, historyLengths[i]? = some n := ⟨_, List.getElem?_eq_getElem hi⟩
  have hread : n / logTableSize < s.ghistWords.length := by
    rw [hlen]
    exact lengths_in_words n (List.mem_of_getElem? hn)
  have hindex : (Register.fold logTableSize (past hist) n ^^^ pc) &&& (tableSize - 1) =
      tableIndex hist pc i := by
    rw [tableIndex_eq hn, hashIndex, tableSize, Nat.one_shiftLeft, Nat.and_two_pow_sub_one_eq_mod,
      Nat.xor_mod_two_pow, Nat.mod_eq_of_lt (Register.fold_lt n), Nat.xor_comm]
  simp [selectWeight, hn, hashHistory_eq h hread, hindex]

/-- The first `m` tables. -/
theorem foldlM_selectWeight (pc : Nat) {m : Nat}
    (h : Register.Holds logTableSize (past hist) s.ghistWords)
    (hlen : s.ghistWords.length = nghistWords) (hm : m ≤ ntables) :
    (List.range m).foldlM (selectWeight pc) { s with yout := 0 } = some { s with
      indices := fun i => if i < m then tableIndex hist pc i else s.indices i
      yout := ((List.range m).map fun i => s.tables i (tableIndex hist pc i)).sum } := by
  induction m with
  | zero => simp
  | succ m ih =>
    have hupdate : Function.update
        (fun i => if i < m then tableIndex hist pc i else s.indices i) m (tableIndex hist pc m) =
          fun i => if i < m + 1 then tableIndex hist pc i else s.indices i := by
      funext i
      rcases Nat.lt_trichotomy i m with hi | hi | hi
      · rw [Function.update_of_ne (by omega), if_pos hi, if_pos (by omega)]
      · rw [hi, Function.update_self, if_pos (by omega)]
      · rw [Function.update_of_ne (by omega), if_neg (by omega), if_neg (by omega)]
    have hlast := selectWeight_eq pc (s := { s with
      indices := fun i => if i < m then tableIndex hist pc i else s.indices i
      yout := ((List.range m).map fun i => s.tables i (tableIndex hist pc i)).sum }) h hlen hm
    rw [List.range_succ, List.foldlM_append, ih (by omega)]
    simp only [Option.bind_eq_bind, Option.bind_some, List.foldlM_cons, List.foldlM_nil, hlast]
    simp [hupdate]

theorem predict_exact (pc : Nat) (h : Register.Holds logTableSize (past hist) s.ghistWords)
    (hlen : s.ghistWords.length = nghistWords) :
    ∃ p, predictBranch pc s = some (p, decide (p.yout ≥ 1)) ∧ Predicts hist pc s p := by
  have hloop := foldlM_selectWeight pc h hlen le_rfl
  refine ⟨_, by rw [predictBranch, hloop]; rfl, ?_⟩
  constructor
  case tables => rfl
  case ghistWords => rfl
  case threshold => exact ⟨rfl, rfl⟩
  case indices =>
    intro i n hn
    have hi : i < ntables := (List.getElem?_eq_some_iff.1 hn).1
    simp only [if_pos hi, tableIndex_eq hn]
  case inTable =>
    intro i hi
    simp only [if_pos hi]
    exact hashIndex_lt hist pc _
  case yout =>
    refine congrArg List.sum (List.map_congr_left fun i hi => ?_)
    simp only [if_pos (List.mem_range.1 hi)]

end Predict

/-! ### What a result does -/

/-- The perceptron learns from a misprediction and from a weak sum. -/
def Learns (taken : Bool) (p : HashedPerceptron) : Prop :=
  taken ≠ decide (p.yout ≥ 1) ∨ |p.yout| < p.theta

instance Learns.decidable (taken : Bool) (p : HashedPerceptron) : Decidable (Learns taken p) :=
  inferInstanceAs (Decidable (_ ∨ _))

/-- The weights that the sum of `p` was made of, and no others, move towards the outcome. -/
def Trains (taken : Bool) (p q : HashedPerceptron) : Prop :=
  ∀ i x, q.tables i x =
    if Learns taken p ∧ i < ntables ∧ x = p.indices i then learn taken (p.tables i x)
    else p.tables i x

section Result

variable {taken : Bool} {p : HashedPerceptron}

theorem magnitude_eq (p : HashedPerceptron) : p.magnitude = |p.yout| := by
  unfold magnitude
  split
  · rw [abs_of_neg (by assumption)]
  · rw [abs_of_nonneg (by omega)]

theorem foldl_updateWeight (m : Nat) :
    (List.range m).foldl (updateWeight taken) p = { p with
      tables := fun i x =>
        if i < m ∧ x = p.indices i then learn taken (p.tables i x) else p.tables i x } := by
  induction m with
  | zero => simp
  | succ m ih =>
    rw [List.range_succ, List.foldl_append, ih]
    simp only [List.foldl_cons, List.foldl_nil, updateWeight]
    congr 1
    funext i x
    rcases eq_or_ne i m with rfl | hi
    · rcases eq_or_ne x (p.indices i) with rfl | hx
      · simp
      · simp [hx]
    · have hlt : i < m + 1 ↔ i < m := by omega
      simp [hi, hlt]

@[simp] theorem setThreshold_tables (c : Bool) (a : Int) (p : HashedPerceptron) :
    (setThreshold c a p).tables = p.tables := by
  unfold setThreshold
  split_ifs <;> rfl

@[simp] theorem setThreshold_ghistWords (c : Bool) (a : Int) (p : HashedPerceptron) :
    (setThreshold c a p).ghistWords = p.ghistWords := by
  unfold setThreshold
  split_ifs <;> rfl

theorem learns_iff : (!p.correct taken || decide (p.magnitude < p.theta)) = true ↔
    Learns taken p := by
  rw [magnitude_eq]
  simp [correct, Learns]

theorem lastBranchResult_of_learns (h : Learns taken p) :
    lastBranchResult taken p = setThreshold (p.correct taken) p.magnitude { p with
      ghistWords := insertOutcome taken p.ghistWords
      tables := fun i x =>
        if i < ntables ∧ x = p.indices i then learn taken (p.tables i x) else p.tables i x } := by
  have hc := learns_iff.2 h
  refine (if_pos hc).trans ?_
  rw [foldl_updateWeight]
  rfl

theorem lastBranchResult_of_not_learns (h : ¬ Learns taken p) :
    lastBranchResult taken p = { p with ghistWords := insertOutcome taken p.ghistWords } :=
  if_neg (mt learns_iff.1 h)

theorem result_exact (taken : Bool) (p : HashedPerceptron) :
    Trains taken p (lastBranchResult taken p) := by
  intro i x
  by_cases h : Learns taken p
  · simp [lastBranchResult_of_learns h, h]
  · simp [lastBranchResult_of_not_learns h, h]

theorem result_ghistWords (taken : Bool) (p : HashedPerceptron) :
    (lastBranchResult taken p).ghistWords = insertOutcome taken p.ghistWords := by
  by_cases h : Learns taken p
  · simp [lastBranchResult_of_learns h]
  · simp [lastBranchResult_of_not_learns h]

theorem learn_range {c : Int} (hlow : -128 ≤ c) (hhigh : c ≤ 127) :
    -128 ≤ learn taken c ∧ learn taken c ≤ 127 := by
  unfold learn
  split_ifs <;> omega

/-- The threshold stays in range, and moves up by at most `1 / speed`. -/
structure ThresholdStep (p q : HashedPerceptron) : Prop where
  theta : 0 ≤ q.theta
  tc : -speed < q.tc ∧ q.tc < speed
  growth : speed * q.theta + q.tc ≤ speed * p.theta + p.tc + 1

/-- `theta` is taken down only from above a magnitude, so from above 0. -/
theorem setThreshold_step {c : Bool} {a : Int} (ha : 0 ≤ a) (htheta : 0 ≤ p.theta)
    (htc : -speed < p.tc ∧ p.tc < speed) : ThresholdStep p (setThreshold c a p) := by
  unfold setThreshold
  split_ifs <;> constructor <;> simp only [speed] at * <;> omega

theorem result_threshold (taken : Bool) (htheta : 0 ≤ p.theta)
    (htc : -speed < p.tc ∧ p.tc < speed) : ThresholdStep p (lastBranchResult taken p) := by
  by_cases h : Learns taken p
  · rw [lastBranchResult_of_learns h]
    have ha : 0 ≤ p.magnitude := by
      rw [magnitude_eq]
      exact abs_nonneg p.yout
    obtain ⟨h₁, h₂, h₃⟩ := setThreshold_step (p := { p with
      ghistWords := insertOutcome taken p.ghistWords
      tables := fun i x =>
        if i < ntables ∧ x = p.indices i then learn taken (p.tables i x) else p.tables i x })
      ha htheta htc
    exact ⟨h₁, h₂, h₃⟩
  · rw [lastBranchResult_of_not_learns h]
    exact ⟨htheta, htc, by dsimp only; omega⟩

end Result

/-! ### Every sequence of branches -/

/-- The outcomes of a sequence of branches, the latest first. -/
def outcomes (branches : List (Nat × Bool)) : List Bool := (branches.map Prod.snd).reverse

@[simp] theorem outcomes_concat (branches : List (Nat × Bool)) (b : Nat × Bool) :
    outcomes (branches ++ [b]) = b.2 :: outcomes branches := by
  simp [outcomes]

/-- The state after the branches of `hist`; `growth` keeps `theta` far from the end of an `int`. -/
structure Sound (hist : List Bool) (s : HashedPerceptron) : Prop where
  words : s.ghistWords.length = nghistWords
  history : ∀ j word, s.ghistWords[j]? = some word →
    word < tableSize ∧ ∀ k < logTableSize, word.testBit k = past hist (logTableSize * j + k)
  weights : ∀ i x, -128 ≤ s.tables i x ∧ s.tables i x ≤ 127
  theta : 0 ≤ s.theta
  tc : -speed < s.tc ∧ s.tc < speed
  growth : speed * s.theta + s.tc ≤ speed * 10 + hist.length

theorem start_sound : Sound [] initializeBranchPredictor where
  words := by simp [initializeBranchPredictor]
  history := by
    show Register.Holds logTableSize (fun _ => false) (List.replicate nghistWords 0)
    exact Register.holds_replicate nghistWords
  weights := by simp [initializeBranchPredictor]
  theta := by decide
  tc := by decide
  growth := by decide

section Run

variable {hist : List Bool} {s p : HashedPerceptron}

theorem Sound.holds (h : Sound hist s) :
    Register.Holds logTableSize (past hist) s.ghistWords := h.history

theorem Sound.result {pc : Nat} (taken : Bool) (h : Sound hist s) (hp : Predicts hist pc s p) :
    Sound (taken :: hist) (lastBranchResult taken p) := by
  have hthreshold : ThresholdStep p (lastBranchResult taken p) :=
    result_threshold taken (by rw [hp.threshold.1]; exact h.theta)
      (by rw [hp.threshold.2]; exact h.tc)
  constructor
  case words =>
    rw [result_ghistWords, insertOutcome_eq, Register.push_length, hp.ghistWords, h.words]
  case history =>
    rw [result_ghistWords, insertOutcome_eq, hp.ghistWords, ← now_past]
    exact Register.push_holds (by decide) h.holds
  case weights =>
    intro i x
    rw [result_exact taken p i x, hp.tables]
    split_ifs
    · exact learn_range (h.weights i x).1 (h.weights i x).2
    · exact h.weights i x
  case theta => exact hthreshold.theta
  case tc => exact hthreshold.tc
  case growth =>
    have hgrowth := h.growth
    have hnext := hthreshold.growth
    rw [hp.threshold.1, hp.threshold.2] at hnext
    rw [List.length_cons]
    omega

end Run

theorem run_sound (branches : List (Nat × Bool)) :
    ∃ s, run branch initializeBranchPredictor branches = some s ∧ Sound (outcomes branches) s := by
  refine run_history (P := fun _ => True) (I := fun bs s => Sound (outcomes bs) s) ?_
    start_sound (fun _ _ => trivial)
  intro bs s b hs hI _
  obtain ⟨p, hp, hpredicts⟩ := predict_exact b.1 hI.holds hI.words
  refine ⟨lastBranchResult b.2 p, by rw [branch, hp]; rfl, ?_⟩
  rw [outcomes_concat]
  exact hI.result b.2 hpredicts

end HashedPerceptron
end Branch
end ChampSim
