import ChampSim.FastSet.Correct
import ChampSim.Lib.Run

/-!
# ChampSim.FastSet.Refine

Any number of `fastset`s under any sequence of `insert` and `join`, against a store of finite sets.

* `Op`, `step`, `refStep` — the calls, on `fastset`s and on finite sets.
* `Legal`                 — what the callers promise: elements below `MAX_SIZE`, and below `n`
  wherever an `n` is passed.
* `Refines s S`           — `search` and `expand` of `s` answer for the finite set `S`.
* `refines_iff`           — the answers are right along a legal run exactly when no join of a large
  argument passes `n = MAX_SIZE`.
-/

namespace ChampSim
namespace FastSet

abbrev Store := Nat → FastSet

inductive Op where
  | insert (i x : Nat)
  | join (i j n : Nat)

def step (σ : Store) : Op → Option Store
  | .insert i x => (FastSet.insert (σ i) x).map (Function.update σ i)
  | .join i j n => (FastSet.join (σ i) (σ j) n).map (Function.update σ i)

def refStep (ρ : Nat → Finset Nat) : Op → Nat → Finset Nat
  | .insert i x => Function.update ρ i (Insert.insert x (ρ i))
  | .join i j _ => Function.update ρ i (ρ i ∪ ρ j)

def refRun (ρ : Nat → Finset Nat) : List Op → Nat → Finset Nat
  | [] => ρ
  | op :: ops => refRun (refStep ρ op) ops

def Op.Legal (ρ : Nat → Finset Nat) : Op → Prop
  | .insert _ x => x < maxSize
  | .join i j n => n ≤ maxSize ∧ ∀ x ∈ ρ i ∪ ρ j, x < n

/-- The argument is small or `n` is below `MAX_SIZE`. -/
def Op.Fits (ρ : Nat → Finset Nat) : Op → Prop
  | .insert _ _ => True
  | .join _ j n => n < maxSize ∨ (ρ j).card < smallSize

/-- `P` holds of every call, with the finite sets it is made on. -/
def Calls (P : (Nat → Finset Nat) → Op → Prop) : (Nat → Finset Nat) → List Op → Prop
  | _, [] => True
  | ρ, op :: ops => P ρ op ∧ Calls P (refStep ρ op) ops

theorem Calls.take {P : (Nat → Finset Nat) → Op → Prop} {ρ : Nat → Finset Nat} {ops : List Op}
    (h : Calls P ρ ops) (k : Nat) : Calls P ρ (ops.take k) := by
  induction ops generalizing ρ k with
  | nil => simpa using h
  | cons op ops ih =>
    cases k with
    | zero => trivial
    | succ k => exact ⟨h.1, ih h.2 k⟩

def Legal (ops : List Op) : Prop := Calls Op.Legal (fun _ => ∅) ops

def Fits (ops : List Op) : Prop := Calls Op.Fits (fun _ => ∅) ops

/-- The answers of `s` are those of `S`. -/
structure Refines (s : FastSet) (S : Finset Nat) : Prop where
  search : ∀ x < maxSize, FastSet.search s x = some (decide (x ∈ S))
  expand : ∀ n ≤ maxSize, (∀ x ∈ S, x < n) → ∃ l, FastSet.expand s n = some l ∧
    l.Pairwise (· < ·) ∧ (∀ x, x ∈ l ↔ x ∈ S) ∧ l.length = S.card ∧ l.length ≤ n

/-- The run does not leave the arrays, and every set answers for its finite set. -/
def Refined (g : Nat → Nat → Nat) (ops : List Op) : Prop :=
  ∃ σ, Lib.run step (fun i => init (g i)) ops = some σ ∧
    ∀ i, Refines (σ i) (refRun (fun _ => ∅) ops i)

theorem Rep.refines {s : FastSet} {S : Finset Nat} (h : Rep s S) : Refines s S where
  search := fun _ hx => search_rep h hx
  expand := by
    intro n hn hS
    refine ⟨_, expand_rep h hn hS, ?_, ?_, ?_, ?_⟩
    · exact List.Pairwise.filter _ List.pairwise_lt_range
    · intro x
      simp only [List.mem_filter, List.mem_range, decide_eq_true_eq]
      exact ⟨fun hx => hx.2, fun hx => ⟨hS x hx, hx⟩⟩
    · have hfin : ((List.range n).filter (fun x => decide (x ∈ S))).toFinset = S := by
        ext x
        simp only [List.mem_toFinset, List.mem_filter, List.mem_range, decide_eq_true_eq]
        exact ⟨fun hx => hx.2, fun hx => ⟨hS x hx, hx⟩⟩
      rw [← List.toFinset_card_of_nodup (List.Nodup.filter _ List.nodup_range), hfin]
    · exact le_trans (List.length_filter_le _ _) (by simp)

section Runs

variable {σ : Store} {ρ : Nat → Finset Nat}

theorem update_rep (h : ∀ k, Rep (σ k) (ρ k)) {i : Nat} {s : FastSet} {S : Finset Nat}
    (hs : Rep s S) : ∀ k, Rep (Function.update σ i s k) (Function.update ρ i S k) := by
  intro k
  by_cases hk : k = i
  · subst hk; simpa using hs
  · simpa [hk] using h k

/-- One call that fits keeps every set a representation of its finite set. -/
theorem step_rep (h : ∀ k, Rep (σ k) (ρ k)) {op : Op} (hl : op.Legal ρ) (hf : op.Fits ρ) :
    ∃ σ', step σ op = some σ' ∧ ∀ k, Rep (σ' k) (refStep ρ op k) := by
  cases op with
  | insert i x =>
    obtain ⟨s', hs', hrep⟩ := insert_rep (h i) hl
    exact ⟨Function.update σ i s', by simp [step, hs'], update_rep h hrep⟩
  | join i j n =>
    have hT : ∀ x ∈ ρ j, x < n := fun x hx => hl.2 x (Finset.mem_union_right _ hx)
    obtain ⟨s', hs', hrep⟩ := join_rep (h i) (h j) hT hf
    exact ⟨Function.update σ i s', by simp [step, hs'], update_rep h hrep⟩

/-- One call that does not fit leaves the array. -/
theorem step_eq_none (h : ∀ k, Rep (σ k) (ρ k)) {op : Op} (hl : op.Legal ρ) (hf : ¬ op.Fits ρ) :
    step σ op = none := by
  cases op with
  | insert i x => exact absurd trivial hf
  | join i j n =>
    obtain ⟨hn, hT⟩ := not_or.mp hf
    have hmax : n = maxSize := by have := hl.1; omega
    subst hmax
    simp [step, join_eq_none (h i) (h j) (not_lt.mp hT)]

theorem run_rep (h : ∀ k, Rep (σ k) (ρ k)) {ops : List Op} (hl : Calls Op.Legal ρ ops)
    (hf : Calls Op.Fits ρ ops) :
    ∃ σ', Lib.run step σ ops = some σ' ∧ ∀ k, Rep (σ' k) (refRun ρ ops k) := by
  induction ops generalizing σ ρ with
  | nil => exact ⟨σ, rfl, h⟩
  | cons op ops ih =>
    obtain ⟨σ₁, hs, h₁⟩ := step_rep h hl.1 hf.1
    obtain ⟨σ', hr, h'⟩ := ih h₁ hl.2 hf.2
    exact ⟨σ', by rw [Lib.run_cons_some hs]; exact hr, h'⟩

theorem run_eq_none (h : ∀ k, Rep (σ k) (ρ k)) {ops : List Op} (hl : Calls Op.Legal ρ ops)
    (hf : ¬ Calls Op.Fits ρ ops) : Lib.run step σ ops = none := by
  induction ops generalizing σ ρ with
  | nil => exact absurd trivial hf
  | cons op ops ih =>
    by_cases h1 : op.Fits ρ
    · obtain ⟨σ₁, hs, h₁⟩ := step_rep h hl.1 h1
      rw [Lib.run_cons_some hs]
      exact ih h₁ hl.2 fun hf' => hf ⟨h1, hf'⟩
    · exact Lib.run_cons_none (step_eq_none h hl.1 h1)

end Runs

/-- Along a legal run every set answers for its finite set, at every moment, exactly when no join
of a large argument passes `n = MAX_SIZE`. -/
theorem refines_iff (g : Nat → Nat → Nat) (ops : List Op) (hl : Legal ops) :
    (∀ k ≤ ops.length, Refined g (ops.take k)) ↔ Fits ops := by
  have h0 : ∀ k : Nat, Rep (init (g k)) ∅ := fun k => rep_init (g k)
  constructor
  · intro h
    by_contra hf
    obtain ⟨σ, hσ, _⟩ := h ops.length (Nat.le_refl _)
    rw [List.take_length, run_eq_none h0 hl hf] at hσ
    cases hσ
  · intro hf k _
    obtain ⟨σ, hσ, hrep⟩ := run_rep h0 (hl.take k) (hf.take k)
    exact ⟨σ, hσ, fun i => (hrep i).refines⟩

/-- Thirteen values in sets 0 and 1. -/
def fill : List Op :=
  (List.range 13).map (Op.insert 0) ++ (List.range 13).map (Op.insert 1)

theorem refines_iff_fill :
    Legal (fill ++ [Op.join 0 1 13]) ∧
      ((∀ k ≤ (fill ++ [Op.join 0 1 13]).length,
        Refined (fun _ _ => 0) ((fill ++ [Op.join 0 1 13]).take k)) ↔ Fits (fill ++ [Op.join 0 1 13])) := by
  have hl : Legal (fill ++ [Op.join 0 1 13]) := by
    simp [Legal, fill, Calls, Op.Legal, refStep, List.range_succ, maxSize]
  exact ⟨hl, refines_iff _ _ hl⟩

/-- Two large sets and `n = MAX_SIZE`: the join leaves the array. -/
theorem join_leaves_array :
    Legal (fill ++ [Op.join 0 1 512]) ∧ ¬ Refined (fun _ _ => 0) (fill ++ [Op.join 0 1 512]) := by
  have hl : Legal (fill ++ [Op.join 0 1 512]) := by
    simp [Legal, fill, Calls, Op.Legal, refStep, List.range_succ, maxSize]
  refine ⟨hl, ?_⟩
  rintro ⟨σ, hσ, _⟩
  have hnone : (Lib.run step (fun _ => init fun _ => 0) (fill ++ [Op.join 0 1 512])).isNone = true := by
    decide
  rw [hσ] at hnone
  cases hnone

end FastSet
end ChampSim
