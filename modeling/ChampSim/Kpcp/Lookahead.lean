import ChampSim.Kpcp.Signature
import Mathlib.Algebra.Order.Ring.Int

/-!
# ChampSim.Kpcp.Lookahead

The search for prefetch candidates along a path of signatures (`prefetcher/kpcp.l2c_pref`).

* `pfCheck`    — `PF_check`, with `fuel` rounds for its `do`-`while` loop.
* `Content`    — what a table of the pattern table must satisfy.
* `laStep_good`, `laStep_lt` — a round of the loop adds one candidate at most, and lowers the
  confidence of the path.
* `pfCheck_bounded` — the search ends within the prefetch buffer.

`none` is a store outside of `pf_buffer`, or no more fuel. The counts of rejected deltas are left
out.
-/

namespace ChampSim
namespace Kpcp

open Lib

def pfThreshold : Int := 25

def l2cMshrSize : Nat := 32

structure PfBuffer where
  delta : Int
  signature : Nat
  conf : Int
  depth : Nat

namespace PfBuffer

def init : PfBuffer := ⟨0, 0, 0, 0⟩

end PfBuffer

/-- `num_pf`, `curr_conf`, `curr_delta` and `pf_buffer` of a core. -/
structure PfState where
  numPf : Nat
  currConf : Int
  currDelta : Int
  pfBuffer : Nat → PfBuffer

namespace PfState

def init : PfState := ⟨0, 0, 0, fun _ => .init⟩

def push (e : PfBuffer) (s : PfState) : Option PfState :=
  if s.numPf < l2cMshrSize then
    some { s with pfBuffer := Function.update s.pfBuffer s.numPf e, numPf := s.numPf + 1 }
  else none

end PfState

def checkSamePage (currBlock : Nat) (delta : Int) : Bool :=
  0 ≤ currBlock + delta ∧ currBlock + delta ≤ 63

/-- `pf_max`, `pf_idx` and `conf_max`; the last is read when a way was found only. -/
structure Best where
  max : Int
  idx : Option Nat
  conf : Int

def Best.init : Best := ⟨0, none, 100⟩

/-- Track the maximum counter regardless of page boundary. -/
def Best.track (conf : Nat → Int) (table : Nat → PatternTable) (b : Best) (i : Nat) : Best :=
  if conf i ≥ pfThreshold ∧ b.max < (table i).cDelta then ⟨(table i).cDelta, some i, conf i⟩ else b

/-! ## The signature itself -/

def tempConf (table : Nat → PatternTable) (i : Nat) : Int :=
  (100 * (table i).cDelta).tdiv (table 0).cSig

def candidate (signature currBlock : Nat) (table : Nat → PatternTable) (x : PfState × Best)
    (i : Nat) : Option (PfState × Best) :=
  (if tempConf table i ≥ pfThreshold ∧ checkSamePage currBlock (table i).delta then
    x.1.push ⟨(table i).delta, signature, tempConf table i, 1⟩
  else some x.1).map fun s => (s, x.2.track (tempConf table) table i)

def firstCheck (signature currBlock : Nat) (table : Nat → PatternTable) (s : PfState) :
    Option PfState :=
  if (table 0).cSig ≠ 0 then
    (run (candidate signature currBlock table) (s, .init) (List.range l2PtWay)).map fun x =>
      match x.2.idx with
      | some i => { x.1 with currConf := x.2.conf, currDelta := (table i).delta }
      | none => { x.1 with currConf := 0, currDelta := 0 }
  else some { s with currConf := 0, currDelta := 0 }

/-! ## The path -/

structure Lookahead where
  signature : Nat
  lastDelta : Int
  pf : PfState

/-- The path confidence. -/
def laConf (currConf maxConf : Int) (table : Nat → PatternTable) (i : Nat) : Int :=
  ((currConf * (table i).cDelta).tdiv (table 0).cSig * maxConf).tdiv 100

/-- The path ends. -/
def Lookahead.stop (x : Lookahead) (signature : Nat) : Lookahead where
  signature := signature
  lastDelta := x.pf.currDelta
  pf := { x.pf with currConf := 0, currDelta := 0 }

/-- The path goes on with the way `i` of the table of `signature`. -/
def Lookahead.follow (x : Lookahead) (signature currBlock : Nat) (delta conf : Int) :
    Option Lookahead :=
  if x.pf.numPf < l2cMshrSize then
    (if checkSamePage currBlock (x.pf.currDelta + delta) ∧ x.pf.currDelta + delta ≠ 0 then
      x.pf.push ⟨x.pf.currDelta + delta, signature, conf, x.pf.numPf + 1⟩
    else some x.pf).map fun s =>
      ⟨signature, x.pf.currDelta, { s with currConf := conf, currDelta := x.pf.currDelta + delta }⟩
  else some (x.stop signature)

def laStep (pt : Nat → Nat → PatternTable) (maxConf : Int) (currBlock : Nat) (x : Lookahead) :
    Option Lookahead :=
  let signature := getNewSignature x.signature (x.pf.currDelta - x.lastDelta)
  let table := pt (signature % l2PtPrime)
  if (table 0).cSig ≠ 0 then
    let conf := laConf x.pf.currConf maxConf table
    let best := (List.range l2PtWay).foldl (Best.track conf table) .init
    match best.idx with
    | some i => x.follow signature currBlock (table i).delta best.conf
    | none => some (x.stop signature)
  else some (x.stop signature)

/-- `do … while (curr_conf >= PF_THRESHOLD)`. -/
def laLoop (pt : Nat → Nat → PatternTable) (maxConf : Int) (currBlock : Nat) :
    Nat → Lookahead → Option Lookahead
  | 0, _ => none
  | fuel + 1, x =>
    (laStep pt maxConf currBlock x).bind fun y =>
      if y.pf.currConf ≥ pfThreshold then laLoop pt maxConf currBlock fuel y else some y

def pfCheck (fuel : Nat) (pt : Nat → Nat → PatternTable) (maxConf : Int)
    (signature currBlock : Nat) (s : PfState) : Option PfState :=
  (firstCheck signature currBlock (pt (signature % l2PtPrime)) s).bind fun s =>
    if s.currConf ≥ pfThreshold then
      (laLoop pt maxConf currBlock fuel ⟨signature, 0, s⟩).map Lookahead.pf
    else some s

/-! ## Confidences -/

structure Content (table : Nat → PatternTable) : Prop extends Counts table where
  empty : ∀ i < l2PtWay, (table i).delta = 0 → (table i).cDelta = 0

section Table

variable {table : Nat → PatternTable} {i : Nat} {c m : Int}

theorem Consistent.content (h : Consistent table) : Content table := ⟨h.toCounts, h.empty⟩

theorem Counts.cSig_pos (h : Counts table) (hne : (table 0).cSig ≠ 0) : 0 < (table 0).cSig :=
  lt_of_le_of_ne h.cSig_nonneg (Ne.symm hne)

/-- A share of `c`: no more than `c`, and nothing of a counter that is 0. -/
theorem share_le (h : Counts table) (hne : (table 0).cSig ≠ 0) (hi : i < l2PtWay) (hc : 0 ≤ c) :
    0 ≤ (c * (table i).cDelta).tdiv (table 0).cSig ∧
      (c * (table i).cDelta).tdiv (table 0).cSig ≤ c := by
  have hpos := h.cSig_pos hne
  have hnonneg := h.cDelta_nonneg i hi
  have hprod : 0 ≤ c * (table i).cDelta := mul_nonneg hc hnonneg
  rw [Int.tdiv_eq_ediv_of_nonneg hprod]
  refine ⟨Int.ediv_nonneg hprod hpos.le, ?_⟩
  calc c * (table i).cDelta / (table 0).cSig
      ≤ c * (table 0).cSig / (table 0).cSig :=
        Int.ediv_le_ediv hpos (mul_le_mul_of_nonneg_left (h.le_cSig hi) hc)
    _ = c := Int.mul_ediv_cancel c hne

theorem tempConf_le (h : Counts table) (hne : (table 0).cSig ≠ 0) (hi : i < l2PtWay) :
    tempConf table i ≤ 100 := (share_le h hne hi (by omega)).2

/-- With a `MAX_CONF` below 100 the path confidence falls. -/
theorem laConf_lt (h : Counts table) (hne : (table 0).cSig ≠ 0) (hi : i < l2PtWay) (hc : 0 < c)
    (hm : 0 ≤ m) (hm' : m ≤ 99) : laConf c m table i < c := by
  obtain ⟨hnonneg, hle⟩ := share_le h hne hi hc.le
  unfold laConf
  generalize (c * (table i).cDelta).tdiv (table 0).cSig = q at *
  rw [Int.tdiv_eq_ediv_of_nonneg (mul_nonneg hnonneg hm)]
  have hprod : q * m ≤ c * 99 := mul_le_mul hle hm' hm hc.le
  omega

/-- A way that is confident enough has been counted, so it has a delta. -/
theorem delta_ne_zero (h : Content table) (hi : i < l2PtWay) (hc : 0 < tempConf table i) :
    (table i).delta ≠ 0 := by
  intro hzero
  rw [tempConf, h.empty i hi hzero] at hc
  simp at hc

end Table

/-! ## Candidates -/

/-- A line of the page other than the one accessed. -/
structure Candidate (currBlock : Nat) (e : PfBuffer) : Prop where
  delta_ne_zero : e.delta ≠ 0
  block_nonneg : 0 ≤ currBlock + e.delta
  block_le : currBlock + e.delta ≤ 63
  le_conf : pfThreshold ≤ e.conf
  conf_le : e.conf ≤ 100

/-- The candidates so far; all but the first few came with a falling confidence. -/
structure Good (currBlock : Nat) (s : PfState) : Prop where
  numPf_le : s.numPf ≤ l2cMshrSize
  candidate : ∀ i < s.numPf, Candidate currBlock (s.pfBuffer i)
  falling : ∀ i < s.numPf, i < l2PtWay ∨ i + 1 + (s.pfBuffer i).conf ≤ 104

section Push

variable {currBlock : Nat} {s : PfState} {e : PfBuffer}

theorem Good.push (h : Good currBlock s) (hroom : s.numPf < l2cMshrSize)
    (he : Candidate currBlock e) (hfall : s.numPf < l2PtWay ∨ s.numPf + 1 + e.conf ≤ 104) :
    ∃ s', s.push e = some s' ∧ Good currBlock s' ∧ s'.numPf = s.numPf + 1 := by
  refine ⟨_, if_pos hroom, ⟨hroom, ?_, ?_⟩, rfl⟩
  · intro i hi
    by_cases heq : i = s.numPf
    · simpa [heq] using he
    · simpa [heq] using h.candidate i (by simp only at hi; omega)
  · intro i hi
    by_cases heq : i = s.numPf
    · simpa [heq] using hfall
    · simpa [heq] using h.falling i (by simp only at hi; omega)

/-- The path state is not part of the candidates. -/
theorem Good.withPath (h : Good currBlock s) (conf delta : Int) :
    Good currBlock { s with currConf := conf, currDelta := delta } :=
  ⟨h.numPf_le, h.candidate, h.falling⟩

theorem samePage_iff {delta : Int} : checkSamePage currBlock delta = true ↔
    0 ≤ currBlock + delta ∧ currBlock + delta ≤ 63 := by
  simp [checkSamePage]

end Push

/-! ## The best way -/

def Best.Of (conf : Nat → Int) (b : Best) : Prop :=
  ∀ i, b.idx = some i → i < l2PtWay ∧ pfThreshold ≤ conf i ∧ b.conf = conf i

theorem Best.Of.track {conf : Nat → Int} {table : Nat → PatternTable} {b : Best} {i : Nat}
    (h : b.Of conf) (hi : i < l2PtWay) : (b.track conf table i).Of conf := by
  unfold Best.track
  split
  · rename_i hbest
    intro j hj
    cases hj
    exact ⟨hi, hbest.1, rfl⟩
  · exact h

theorem Best.of_foldl (conf : Nat → Int) (table : Nat → PatternTable) {n : Nat}
    (hn : n ≤ l2PtWay) : ((List.range n).foldl (Best.track conf table) .init).Of conf := by
  induction n with
  | zero =>
    intro i hi
    cases hi
  | succ n ih =>
    rw [List.range_succ, List.foldl_append]
    exact (ih (by omega)).track (by omega)

/-! ## The first phase -/

section First

variable {signature currBlock : Nat} {table : Nat → PatternTable} {s : PfState}

theorem candidates_good (signature currBlock : Nat) (h : Content table)
    (hne : (table 0).cSig ≠ 0) {n : Nat} (hn : n ≤ l2PtWay) :
    ∃ x, run (candidate signature currBlock table) (PfState.init, Best.init) (List.range n) =
        some x ∧ Good currBlock x.1 ∧ x.1.numPf ≤ n ∧ x.2.Of (tempConf table) := by
  induction n with
  | zero =>
    refine ⟨_, rfl, ⟨Nat.zero_le _, ?_, ?_⟩, Nat.zero_le _, ?_⟩
    · exact fun i hi => absurd hi (Nat.not_lt_zero i)
    · exact fun i hi => absurd hi (Nat.not_lt_zero i)
    · intro i hi
      cases hi
  | succ n ih =>
    obtain ⟨x, hrun, hgood, hnum, hbest⟩ := ih (by omega)
    have hn' : n < l2PtWay := by omega
    rw [List.range_succ, run_append, hrun, Option.bind_some, run_singleton]
    unfold candidate
    split
    · rename_i hc
      obtain ⟨hconf, hpage⟩ := hc
      have hblock := samePage_iff.mp hpage
      have hpos : 0 < tempConf table n := by
        simp only [pfThreshold] at hconf
        omega
      have hroom : x.1.numPf < l2cMshrSize := by
        simp only [l2PtWay] at hn'
        simp only [l2cMshrSize]
        omega
      obtain ⟨s', hpush, hgood', hnum'⟩ := hgood.push hroom
        (e := ⟨(table n).delta, signature, tempConf table n, 1⟩)
        ⟨delta_ne_zero h hn' hpos, hblock.1, hblock.2, hconf, tempConf_le h.toCounts hne hn'⟩
        (.inl (by omega))
      rw [hpush]
      exact ⟨_, rfl, hgood', by simp only; omega, hbest.track hn'⟩
    · exact ⟨_, rfl, hgood, by simp only; omega, hbest.track hn'⟩

theorem firstCheck_good (signature currBlock : Nat) (h : Content table) :
    ∃ s, firstCheck signature currBlock table .init = some s ∧ Good currBlock s ∧
      s.numPf ≤ l2PtWay ∧ 0 ≤ s.currConf ∧ s.currConf ≤ 100 := by
  unfold firstCheck
  split
  · rename_i hne
    obtain ⟨x, hrun, hgood, hnum, hbest⟩ :=
      candidates_good signature currBlock h hne (le_refl l2PtWay)
    rw [hrun, Option.map_some]
    split
    · rename_i i hi
      obtain ⟨hway, hconf, heq⟩ := hbest i hi
      have hle := tempConf_le h.toCounts hne hway
      simp only [pfThreshold] at hconf
      exact ⟨_, rfl, hgood.withPath .., hnum, by simp only; omega, by simp only; omega⟩
    · exact ⟨_, rfl, hgood.withPath .., hnum, le_rfl, by simp⟩
  · refine ⟨_, rfl, ⟨Nat.zero_le _, ?_, ?_⟩, Nat.zero_le _, le_rfl, by simp⟩
    · exact fun i hi => absurd hi (Nat.not_lt_zero i)
    · exact fun i hi => absurd hi (Nat.not_lt_zero i)

end First

/-! ## The loop -/

/-- Every candidate of the path costs at least one point of confidence. -/
structure LaGood (currBlock : Nat) (x : Lookahead) : Prop where
  good : Good currBlock x.pf
  budget : x.pf.numPf + x.pf.currConf ≤ 104
  conf_nonneg : 0 ≤ x.pf.currConf
  conf_le : x.pf.currConf ≤ 100

section Loop

variable {pt : Nat → Nat → PatternTable} {maxConf : Int} {currBlock : Nat} {x : Lookahead}

theorem LaGood.stop (h : LaGood currBlock x) (signature : Nat) :
    LaGood currBlock (x.stop signature) := by
  have hbudget := h.budget
  have hnonneg := h.conf_nonneg
  exact ⟨h.good.withPath .., by simp only [Lookahead.stop]; omega, le_rfl, by simp [Lookahead.stop]⟩

theorem LaGood.follow (h : LaGood currBlock x) (signature : Nat) {delta conf : Int}
    (hconf : pfThreshold ≤ conf) (hlt : conf < x.pf.currConf) :
    ∃ y, x.follow signature currBlock delta conf = some y ∧ LaGood currBlock y := by
  have hbudget := h.budget
  have hle := h.conf_le
  unfold Lookahead.follow
  split
  · rename_i hroom
    split
    · rename_i hc
      have hblock := samePage_iff.mp hc.1
      obtain ⟨s', hpush, hgood, hnum⟩ := h.good.push hroom
        (e := ⟨x.pf.currDelta + delta, signature, conf, x.pf.numPf + 1⟩)
        ⟨hc.2, hblock.1, hblock.2, hconf, by simp only; omega⟩ (.inr (by simp only; omega))
      rw [hpush, Option.map_some]
      simp only [pfThreshold] at hconf
      exact ⟨_, rfl, hgood.withPath .., by simp only; omega, by simp only; omega,
        by simp only; omega⟩
    · simp only [pfThreshold] at hconf
      exact ⟨_, rfl, h.good.withPath .., by simp only; omega, by simp only; omega,
        by simp only; omega⟩
  · exact ⟨_, rfl, h.stop signature⟩

theorem laStep_good (hpt : ∀ idx, Counts (pt idx)) (hm : 0 ≤ maxConf) (hm' : maxConf ≤ 99)
    (h : LaGood currBlock x) (hconf : pfThreshold ≤ x.pf.currConf) :
    ∃ y, laStep pt maxConf currBlock x = some y ∧ LaGood currBlock y := by
  have hpos : 0 < x.pf.currConf := by
    simp only [pfThreshold] at hconf
    omega
  unfold laStep
  simp only
  generalize getNewSignature x.signature (x.pf.currDelta - x.lastDelta) = signature
  split
  · rename_i hne
    split
    · rename_i i hi
      obtain ⟨hway, hthr, heq⟩ := Best.of_foldl _ _ le_rfl i hi
      rw [heq]
      exact h.follow signature hthr (laConf_lt (hpt _) hne hway hpos hm hm')
    · exact ⟨_, rfl, h.stop signature⟩
  · exact ⟨_, rfl, h.stop signature⟩

/-- A round lowers the confidence, whatever it starts from. -/
theorem laStep_lt (hpt : ∀ idx, Counts (pt idx)) (hm : 0 ≤ maxConf) (hm' : maxConf ≤ 99)
    (hconf : pfThreshold ≤ x.pf.currConf) {y : Lookahead}
    (h : laStep pt maxConf currBlock x = some y) : y.pf.currConf < x.pf.currConf := by
  have hpos : 0 < x.pf.currConf := by
    simp only [pfThreshold] at hconf
    omega
  unfold laStep at h
  simp only at h
  split at h
  · rename_i hne
    split at h
    · rename_i i hi
      obtain ⟨hway, hthr, heq⟩ := Best.of_foldl _ _ le_rfl i hi
      have hlt := laConf_lt (hpt _) hne hway hpos hm hm'
      rw [heq] at h
      unfold Lookahead.follow at h
      split at h
      · obtain ⟨s, -, rfl⟩ := Option.map_eq_some_iff.mp h
        exact hlt
      · cases h
        exact hpos
    · cases h
      exact hpos
  · cases h
    exact hpos

/-- The rounds are bounded by the confidence that the path starts with. -/
theorem laLoop_good (hpt : ∀ idx, Counts (pt idx)) (hm : 0 ≤ maxConf) (hm' : maxConf ≤ 99)
    (n : Nat) (h : LaGood currBlock x) (hconf : pfThreshold ≤ x.pf.currConf)
    (hn : x.pf.currConf < n + 1) :
    ∃ y, LaGood currBlock y ∧ ∀ fuel > n, laLoop pt maxConf currBlock fuel x = some y := by
  induction n generalizing x with
  | zero =>
    simp only [pfThreshold] at hconf
    omega
  | succ n ih =>
    obtain ⟨y, hstep, hy⟩ := laStep_good hpt hm hm' h hconf
    have hlt := laStep_lt hpt hm hm' hconf hstep
    by_cases hgo : y.pf.currConf ≥ pfThreshold
    · obtain ⟨z, hz, hall⟩ := ih hy hgo (by omega)
      refine ⟨z, hz, fun fuel hfuel => ?_⟩
      obtain ⟨k, rfl⟩ : ∃ k, fuel = k + 1 := ⟨fuel - 1, by omega⟩
      rw [laLoop, hstep, Option.bind_some, if_pos hgo]
      exact hall k (by omega)
    · refine ⟨y, hy, fun fuel hfuel => ?_⟩
      obtain ⟨k, rfl⟩ : ∃ k, fuel = k + 1 := ⟨fuel - 1, by omega⟩
      rw [laLoop, hstep, Option.bind_some, if_neg hgo]

end Loop

theorem pfCheck_bounded {pt : Nat → Nat → PatternTable} (hpt : ∀ idx, Content (pt idx))
    {maxConf : Int} (hm : 0 ≤ maxConf) (hm' : maxConf ≤ 99) (signature currBlock : Nat) :
    ∃ s, Good currBlock s ∧
      ∀ fuel > 100, pfCheck fuel pt maxConf signature currBlock .init = some s := by
  obtain ⟨s, hfirst, hgood, hnum, hnonneg, hle⟩ :=
    firstCheck_good signature currBlock (hpt (signature % l2PtPrime))
  unfold pfCheck
  rw [hfirst]
  simp only [Option.bind_some]
  by_cases hgo : s.currConf ≥ pfThreshold
  · simp only [l2PtWay] at hnum
    obtain ⟨y, hy, hall⟩ := laLoop_good (fun idx => (hpt idx).toCounts) hm hm'
      (x := ⟨signature, 0, s⟩) 100 ⟨hgood, by simp only; omega, hnonneg, hle⟩ hgo
      (by simp only; omega)
    refine ⟨y.pf, hy.good, fun fuel hfuel => ?_⟩
    rw [if_pos hgo, hall fuel hfuel]
    rfl
  · exact ⟨s, hgood, fun fuel _ => if_neg hgo⟩

end Kpcp
end ChampSim
