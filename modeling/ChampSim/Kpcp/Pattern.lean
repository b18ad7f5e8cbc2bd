import ChampSim.Lib.Run
import ChampSim.Lib.Scan
import Mathlib.Algebra.BigOperators.Intervals
import Mathlib.Algebra.Order.BigOperators.Group.Finset

/-!
# ChampSim.Kpcp.Pattern

The pattern table of the signature path prefetcher (`inc/kpcp.h`): what delta followed a signature,
and how often.

* `l2PtUpdate`   — `L2_PT_update`; `none` when the replacement search finds no way.
* `Counts`       — the counters of the ways do not add up to more than the counter of the table.
* `Consistent`   — and the table tells its deltas apart.
* `update_consistent` — what one call keeps.
* `pattern_table_consistent` — what every sequence of calls keeps.

A signature is never negative, so it is a natural number. The counters stay below 16.
-/

namespace ChampSim
namespace Kpcp

open Lib

def l2PtWay : Nat := 4

def l2PtPrime : Nat := 509

def cdeltaMax : Int := 16

def csigMax : Int := 16

structure PatternTable where
  delta : Int
  cDelta : Int
  cSig : Int
deriving DecidableEq, Repr

namespace PatternTable

def init : PatternTable := ⟨0, 0, 0⟩

end PatternTable

/-- `table[0].c_sig++`, and the halving of the counters when it saturates. -/
def countSignature (table : Nat → PatternTable) : Nat → PatternTable :=
  let counted := Function.update table 0 { table 0 with cSig := (table 0).cSig + 1 }
  if (counted 0).cSig = csigMax then fun i =>
    { counted i with
      cDelta := (counted i).cDelta >>> (1 : Nat)
      cSig := if i = 0 then csigMax >>> (1 : Nat) else (counted i).cSig }
  else counted

/-- `min_idx` after the search for the lowest counter; `none` is -1. -/
def lowest (table : Nat → PatternTable) : Option Nat :=
  (scanMin (fun _ => true) (fun i => (table i).cDelta) cdeltaMax l2PtWay).2

/-- The three searches for the way of `delta`, and the entry that the way gets. -/
def ptMatch (delta : Int) (table : Nat → PatternTable) : Option (Nat × PatternTable) :=
  match (List.range l2PtWay).find? fun i => (table i).delta == delta with
  | some i => some (i, { table i with cDelta := (table i).cDelta + 1 })
  | none =>
    match (List.range l2PtWay).find? fun i => (table i).delta == 0 with
    | some i => some (i, { table i with delta := delta, cDelta := 0 })
    | none => (lowest table).map fun i => (i, { table i with delta := delta, cDelta := 0 })

def updateTable (delta : Int) (table : Nat → PatternTable) : Option (Nat → PatternTable) :=
  (ptMatch delta (countSignature table)).map fun (i, e) =>
    Function.update (countSignature table) i e

/-- `L2_PT[cpu][idx][way]`. -/
abbrev L2Pt := Nat → Nat → Nat → PatternTable

namespace L2Pt

def init : L2Pt := fun _ _ _ => .init

end L2Pt

def l2PtUpdate (cpu signature : Nat) (delta : Int) (pt : L2Pt) : Option L2Pt :=
  let idx := signature % l2PtPrime
  (updateTable delta (pt cpu idx)).map fun table =>
    Function.update pt cpu (Function.update (pt cpu) idx table)

/-! ## The counters -/

def total (table : Nat → PatternTable) : Int := ∑ i ∈ Finset.range l2PtWay, (table i).cDelta

structure Counts (table : Nat → PatternTable) : Prop where
  cDelta_nonneg : ∀ i < l2PtWay, 0 ≤ (table i).cDelta
  total_le : total table ≤ (table 0).cSig

structure Consistent (table : Nat → PatternTable) : Prop extends Counts table where
  cSig_lt : (table 0).cSig < csigMax
  empty : ∀ i < l2PtWay, (table i).delta = 0 → (table i).cDelta = 0
  distinct : ∀ i < l2PtWay, ∀ j < l2PtWay,
    (table i).delta ≠ 0 → (table i).delta = (table j).delta → i = j

section Table

variable {table : Nat → PatternTable} {delta : Int} {i : Nat} {e : PatternTable}

theorem Counts.le_cSig (h : Counts table) (hi : i < l2PtWay) :
    (table i).cDelta ≤ (table 0).cSig :=
  (Finset.single_le_sum (fun j hj => h.cDelta_nonneg j (Finset.mem_range.mp hj))
    (Finset.mem_range.mpr hi)).trans h.total_le

theorem Counts.cSig_nonneg (h : Counts table) : 0 ≤ (table 0).cSig :=
  (h.cDelta_nonneg 0 (by decide)).trans (h.le_cSig (by decide))

theorem total_update (hi : i < l2PtWay) (e : PatternTable) :
    total (Function.update table i e) + (table i).cDelta = total table + e.cDelta := by
  have hmem : i ∈ Finset.range l2PtWay := Finset.mem_range.mpr hi
  have hrest : ∑ j ∈ (Finset.range l2PtWay).erase i, (Function.update table i e j).cDelta =
      ∑ j ∈ (Finset.range l2PtWay).erase i, (table j).cDelta := by
    refine Finset.sum_congr rfl fun j hj => ?_
    rw [Function.update_of_ne (Finset.ne_of_mem_erase hj)]
  unfold total
  rw [← Finset.add_sum_erase _ (fun j => (table j).cDelta) hmem,
    ← Finset.add_sum_erase _ (fun j => (Function.update table i e j).cDelta) hmem, hrest]
  simp only [Function.update_self]
  omega

theorem two_mul_halves (f : Nat → Int) (n : Nat) :
    2 * ∑ i ∈ Finset.range n, f i >>> (1 : Nat) ≤ ∑ i ∈ Finset.range n, f i := by
  induction n with
  | zero => simp
  | succ n ih =>
    have hhalf : 2 * (f n >>> (1 : Nat)) ≤ f n := by
      rw [Int.shiftRight_eq_div_pow]
      omega
    rw [Finset.sum_range_succ, Finset.sum_range_succ]
    omega

/-- The halving loses nothing but counts: the deltas stay where they are. -/
theorem countSignature_delta (table : Nat → PatternTable) (i : Nat) :
    (countSignature table i).delta = (table i).delta := by
  unfold countSignature
  simp only
  split <;> by_cases hi : i = 0 <;> simp [hi]

theorem countSignature_cDelta (table : Nat → PatternTable) (i : Nat) :
    (countSignature table i).cDelta =
      if (table 0).cSig + 1 = csigMax then (table i).cDelta >>> (1 : Nat)
      else (table i).cDelta := by
  unfold countSignature
  simp only [Function.update_self]
  split <;> by_cases hi : i = 0 <;> simp [hi]

theorem countSignature_cSig (table : Nat → PatternTable) :
    (countSignature table 0).cSig =
      if (table 0).cSig + 1 = csigMax then csigMax >>> (1 : Nat) else (table 0).cSig + 1 := by
  unfold countSignature
  simp only [Function.update_self]
  split <;> simp

/-- Counting the signature makes room for one more delta. -/
theorem countSignature_total (h : Counts table) :
    total (countSignature table) < (countSignature table 0).cSig := by
  unfold total
  rw [countSignature_cSig]
  simp only [countSignature_cDelta]
  have hle := h.total_le
  unfold total at hle
  split
  · have hhalf := two_mul_halves (fun i => (table i).cDelta) l2PtWay
    have hmax : csigMax >>> (1 : Nat) = 8 := by decide
    simp only [csigMax] at *
    omega
  · omega

theorem countSignature_nonneg (h : Counts table) :
    ∀ i < l2PtWay, 0 ≤ (countSignature table i).cDelta := by
  intro i hi
  have hnonneg := h.cDelta_nonneg i hi
  rw [countSignature_cDelta]
  split
  · rw [Int.shiftRight_eq_div_pow]
    omega
  · exact hnonneg

theorem countSignature_lt (h : (table 0).cSig < csigMax) :
    (countSignature table 0).cSig < csigMax := by
  have hmax : csigMax >>> (1 : Nat) < csigMax := by decide
  rw [countSignature_cSig]
  split
  · exact hmax
  · omega

theorem countSignature_consistent (h : Consistent table) :
    Consistent (countSignature table) where
  cDelta_nonneg := countSignature_nonneg h.toCounts
  total_le := (countSignature_total h.toCounts).le
  cSig_lt := countSignature_lt h.cSig_lt
  empty := by
    intro i hi hdelta
    rw [countSignature_delta] at hdelta
    rw [countSignature_cDelta, h.empty i hi hdelta]
    split <;> rfl
  distinct := by
    intro i hi j hj
    rw [countSignature_delta, countSignature_delta]
    exact h.distinct i hi j hj

/-- No counter reaches `CDELTA_MAX`, so one is the lowest. -/
theorem lowest_ne_none (h : Counts table) (hlt : (table 0).cSig < csigMax) :
    lowest table ≠ none := by
  intro hnone
  have hle := (scanMin_none hnone).2 0 (by decide) rfl
  have hfirst := h.le_cSig (i := 0) (by decide)
  simp only [cdeltaMax, csigMax] at *
  omega

/-! ## The match -/

theorem ptMatch_spec (h : ptMatch delta table = some (i, e)) :
    i < l2PtWay ∧ e.cSig = (table i).cSig ∧ e.delta = delta ∧
      ((table i).delta = delta ∧ e.cDelta = (table i).cDelta + 1 ∨
        (∀ j < l2PtWay, (table j).delta ≠ delta) ∧ e.cDelta = 0) := by
  unfold ptMatch at h
  split at h
  · rename_i j hj
    cases h
    have hdelta : (table i).delta = delta := by simpa using List.find?_some hj
    exact ⟨List.mem_range.mp (List.mem_of_find?_eq_some hj), rfl, hdelta, .inl ⟨hdelta, rfl⟩⟩
  · rename_i hmiss
    have hne : ∀ j < l2PtWay, (table j).delta ≠ delta := by
      simpa using hmiss
    split at h
    · rename_i j hj
      cases h
      exact ⟨List.mem_range.mp (List.mem_of_find?_eq_some hj), rfl, rfl, .inr ⟨hne, rfl⟩⟩
    · obtain ⟨j, hj, heq⟩ := Option.map_eq_some_iff.mp h
      cases heq
      exact ⟨(scanMin_some hj).1, rfl, rfl, .inr ⟨hne, rfl⟩⟩

theorem ptMatch_ne_none (h : lowest table ≠ none) : ptMatch delta table ≠ none := by
  unfold ptMatch
  split
  · exact Option.some_ne_none _
  · split
    · exact Option.some_ne_none _
    · simpa using h

theorem update_counts (hroom : total table < (table 0).cSig)
    (hnonneg : ∀ i < l2PtWay, 0 ≤ (table i).cDelta) (h : ptMatch delta table = some (i, e)) :
    Counts (Function.update table i e) := by
  obtain ⟨hi, hcSig, -, hcount⟩ := ptMatch_spec h
  have hold := hnonneg i hi
  have htotal : total (Function.update table i e) + (table i).cDelta = total table + e.cDelta :=
    total_update hi e
  refine ⟨?_, ?_⟩
  · intro j hj
    by_cases hji : j = i
    · subst hji
      rw [Function.update_self]
      omega
    · rw [Function.update_of_ne hji]
      exact hnonneg j hj
  · have hsig : (Function.update table i e 0).cSig = (table 0).cSig := by
      by_cases hi0 : i = 0
      · subst hi0
        rw [Function.update_self, hcSig]
      · rw [Function.update_of_ne (Ne.symm hi0)]
    omega

/-- Only a delta that the table does not have is new in it. -/
theorem update_distinct (hdistinct : ∀ i < l2PtWay, ∀ j < l2PtWay,
      (table i).delta ≠ 0 → (table i).delta = (table j).delta → i = j)
    (h : ptMatch delta table = some (i, e)) :
    ∀ j < l2PtWay, ∀ k < l2PtWay, (Function.update table i e j).delta ≠ 0 →
      (Function.update table i e j).delta = (Function.update table i e k).delta → j = k := by
  obtain ⟨hi, -, hdelta, hcount⟩ := ptMatch_spec h
  have hother : ∀ j < l2PtWay, (table j).delta = delta → delta ≠ 0 → j = i := by
    intro j hj hjd hne
    rcases hcount with ⟨hid, -⟩ | ⟨hmiss, -⟩
    · exact hdistinct j hj i hi (hjd ▸ hne) (hjd.trans hid.symm)
    · exact absurd hjd (hmiss j hj)
  intro j hj k hk hne heq
  by_cases hji : j = i
  · subst hji
    by_cases hkj : k = j
    · exact hkj.symm
    · rw [Function.update_self, hdelta] at hne
      rw [Function.update_self, Function.update_of_ne hkj, hdelta] at heq
      exact (hother k hk heq.symm hne).symm
  · rw [Function.update_of_ne hji] at hne heq
    by_cases hki : k = i
    · subst hki
      rw [Function.update_self, hdelta] at heq
      exact hother j hj heq (heq ▸ hne)
    · rw [Function.update_of_ne hki] at heq
      exact hdistinct j hj k hk hne heq

theorem update_consistent (h : Consistent table) (hdelta : delta ≠ 0) :
    ∃ table', updateTable delta table = some table' ∧ Consistent table' := by
  have hcounted := countSignature_consistent h
  have hne : ptMatch delta (countSignature table) ≠ none :=
    ptMatch_ne_none (lowest_ne_none hcounted.toCounts hcounted.cSig_lt)
  obtain ⟨⟨i, e⟩, hmatch⟩ := Option.ne_none_iff_exists'.mp hne
  obtain ⟨hi, hcSig, hed, -⟩ := ptMatch_spec hmatch
  refine ⟨_, by rw [updateTable, hmatch]; rfl,
    { update_counts (countSignature_total h.toCounts) (countSignature_nonneg h.toCounts) hmatch with
      cSig_lt := ?_, empty := ?_, distinct := update_distinct hcounted.distinct hmatch }⟩
  · by_cases hi0 : i = 0
    · subst hi0
      rw [Function.update_self, hcSig]
      exact hcounted.cSig_lt
    · rw [Function.update_of_ne (Ne.symm hi0)]
      exact hcounted.cSig_lt
  · intro j hj
    by_cases hji : j = i
    · subst hji
      rw [Function.update_self, hed]
      exact fun hzero => absurd hzero hdelta
    · rw [Function.update_of_ne hji]
      exact hcounted.empty j hj

end Table

/-! ## Every sequence of calls -/

namespace L2Pt

def Consistent (pt : L2Pt) : Prop := ∀ cpu idx, Kpcp.Consistent (pt cpu idx)

theorem consistent_init : Consistent init := by
  intro cpu idx
  exact
    { cDelta_nonneg := fun i _ => le_rfl
      total_le := by simp [total, init, PatternTable.init]
      cSig_lt := by simp [init, PatternTable.init, csigMax]
      empty := fun i _ _ => rfl
      distinct := fun i _ j _ hne _ => absurd rfl hne }

end L2Pt

structure PtCall where
  cpu : Nat
  signature : Nat
  delta : Int

def PtCall.step (pt : L2Pt) (c : PtCall) : Option L2Pt := l2PtUpdate c.cpu c.signature c.delta pt

theorem l2PtUpdate_consistent (cpu signature : Nat) {delta : Int} {pt : L2Pt}
    (h : pt.Consistent) (hdelta : delta ≠ 0) :
    ∃ pt', l2PtUpdate cpu signature delta pt = some pt' ∧ pt'.Consistent := by
  obtain ⟨table, htable, hconsistent⟩ := update_consistent (h cpu (signature % l2PtPrime)) hdelta
  refine ⟨Function.update pt cpu (Function.update (pt cpu) (signature % l2PtPrime) table),
    by rw [l2PtUpdate, htable]; rfl, ?_⟩
  intro cpu' idx
  by_cases hcpu : cpu' = cpu
  · subst hcpu
    rw [Function.update_self]
    by_cases hidx : idx = signature % l2PtPrime
    · subst hidx
      rw [Function.update_self]
      exact hconsistent
    · rw [Function.update_of_ne hidx]
      exact h cpu' idx
  · rw [Function.update_of_ne hcpu]
    exact h cpu' idx

theorem pattern_table_consistent (calls : List PtCall) (hdelta : ∀ c ∈ calls, c.delta ≠ 0) :
    ∃ pt, run PtCall.step L2Pt.init calls = some pt ∧
      ∀ cpu idx,
        0 ≤ (pt cpu idx 0).cSig ∧ (pt cpu idx 0).cSig < csigMax ∧
        (∀ i < l2PtWay, 0 ≤ (pt cpu idx i).cDelta) ∧
        ∑ i ∈ Finset.range l2PtWay, (pt cpu idx i).cDelta ≤ (pt cpu idx 0).cSig ∧
        (∀ i < l2PtWay, (pt cpu idx i).delta = 0 → (pt cpu idx i).cDelta = 0) ∧
        (∀ i < l2PtWay, ∀ j < l2PtWay,
          (pt cpu idx i).delta ≠ 0 → (pt cpu idx i).delta = (pt cpu idx j).delta → i = j) ∧
        lowest (countSignature (pt cpu idx)) ≠ none := by
  obtain ⟨pt, hrun, hpt⟩ := run_total (I := L2Pt.Consistent)
    (P := fun _ (c : PtCall) => c.delta ≠ 0)
    (fun pt c h hc => l2PtUpdate_consistent c.cpu c.signature h hc) L2Pt.consistent_init
    (along_of_forall hdelta L2Pt.init)
  refine ⟨pt, hrun, fun cpu idx => ?_⟩
  have h := hpt cpu idx
  have hcounted := countSignature_consistent h
  exact ⟨h.cSig_nonneg, h.cSig_lt, h.cDelta_nonneg, h.total_le, h.empty, h.distinct,
    lowest_ne_none hcounted.toCounts hcounted.cSig_lt⟩

theorem pattern_table_consistent_twice :
    ∃ pt, run PtCall.step L2Pt.init [⟨0, 7, 3⟩, ⟨0, 7, -2⟩, ⟨0, 7, 3⟩] = some pt ∧
      (pt 0 7 0).cSig = 3 := by
  obtain ⟨pt, hrun, -⟩ :=
    pattern_table_consistent [⟨0, 7, 3⟩, ⟨0, 7, -2⟩, ⟨0, 7, 3⟩] (by decide)
  refine ⟨pt, hrun, ?_⟩
  cases hrun
  rfl

end Kpcp
end ChampSim
