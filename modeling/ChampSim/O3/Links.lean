import ChampSim.O3.Window
import Mathlib.Data.Finset.Prod

/-!
# ChampSim.O3.Links

The register dependences recorded in the ROB.

* `pairs r i`      — the producers and sources that the instruction at `i` still waits for.
* `Linked r owed`  — consumers are younger than their producers, and `num_reg_dependent` counts the
  pairs, up to the `owed` decrements that a release has still to make.
* `Recording`      — a ring in the course of `reg_dependency`.
* `regDependency_recording` — all of it.
-/

namespace ChampSim
namespace O3

open Lib ChampSim.Core

/-- The fields of an instruction that the counts are about. -/
def links (x : OooModelInstr) : Int × Bool × Finset Nat × (Nat → Finset Nat) × Bool :=
  (x.numRegDependent, x.executed == .completed, x.registersInstrsDependOnMe,
    x.registersIndexDependOnMe, x.regRawProducer)

/-- An instruction without what `reg_dependency` writes. -/
def unlinked (x : OooModelInstr) : OooModelInstr :=
  { x with
    regReady := false
    producerId := 0
    numRegDependent := 0
    regRawChecked := fun _ => false
    registersInstrsDependOnMe := ∅
    registersIndexDependOnMe := fun _ => ∅
    regRawProducer := false }

def pairs (r : Lib.Ring OooModelInstr) (i : Nat) : Finset (Nat × Nat) :=
  (Finset.range r.size ×ˢ Finset.range numInstrSources).filter fun pj =>
    (r.entry pj.1).executed ≠ .completed ∧ i ∈ (r.entry pj.1).registersIndexDependOnMe pj.2

structure Linked (r : Lib.Ring OooModelInstr) (owed : Nat → Nat) : Prop where
  window : Window r
  older : ∀ p j i, i ∈ (r.entry p).registersIndexDependOnMe j →
    j < numInstrSources ∧ r.Live i ∧ r.age p < r.age i
  listed : ∀ p j i, i ∈ (r.entry p).registersIndexDependOnMe j →
    i ∈ (r.entry p).registersInstrsDependOnMe ∧ (r.entry p).regRawProducer = true
  count : ∀ i, r.Live i → (r.entry i).numRegDependent = ((pairs r i).card + owed i : Nat)

section Basic

variable {r r' : Lib.Ring OooModelInstr} {owed : Nat → Nat} {i p j : Nat}

theorem mem_pairs : (p, j) ∈ pairs r i ↔ (p < r.size ∧ j < numInstrSources) ∧
    (r.entry p).executed ≠ .completed ∧ i ∈ (r.entry p).registersIndexDependOnMe j := by
  simp [pairs]

/-- A consumer of a live entry's set is not a slot that an instruction has left. -/
theorem Linked.live_producer (h : Linked r owed)
    (hi : i ∈ (r.entry p).registersIndexDependOnMe j) : r.Live p := by
  refine h.window.live_of OooModelInstr.registersIndexDependOnMe (fun _ => rfl) fun he => ?_
  rw [he] at hi
  exact absurd hi (Finset.notMem_empty i)

theorem pairs_congr (hsize : r'.size = r.size)
    (hexec : ∀ p, ((r'.entry p).executed = .completed ↔
      (r.entry p).executed = .completed))
    (hsets : ∀ p j, i ∈ (r'.entry p).registersIndexDependOnMe j ↔
      i ∈ (r.entry p).registersIndexDependOnMe j) : pairs r' i = pairs r i := by
  ext ⟨p, j⟩
  rw [mem_pairs, mem_pairs, hsize, hsets, ne_eq, ne_eq, hexec p]

/-- The links depend on their fields and on the shape of the ring only. -/
theorem Linked.alike (h : Linked r owed) (hw : Window r') (ha : Ring.Alike links r r') :
    Linked r' owed := by
  have hcount : ∀ p, (r'.entry p).numRegDependent = (r.entry p).numRegDependent := fun p =>
    congrArg (·.1) (ha.entry p)
  have hexec : ∀ p, ((r'.entry p).executed = .completed ↔ (r.entry p).executed = .completed) := by
    intro p
    have hbeq : ((r'.entry p).executed == .completed) = ((r.entry p).executed == .completed) :=
      congrArg (·.2.1) (ha.entry p)
    rw [← beq_iff_eq, hbeq, beq_iff_eq]
  have hinstrs : ∀ p, (r'.entry p).registersInstrsDependOnMe =
      (r.entry p).registersInstrsDependOnMe := fun p => congrArg (·.2.2.1) (ha.entry p)
  have hindex : ∀ p, (r'.entry p).registersIndexDependOnMe =
      (r.entry p).registersIndexDependOnMe := fun p => congrArg (·.2.2.2.1) (ha.entry p)
  have hproducer : ∀ p, (r'.entry p).regRawProducer = (r.entry p).regRawProducer := fun p =>
    congrArg (·.2.2.2.2) (ha.entry p)
  refine ⟨hw, fun p j i hi => ?_, fun p j i hi => ?_, fun i hi => ?_⟩
  · rw [hindex] at hi
    rw [ha.live, ha.age, ha.age]
    exact h.older p j i hi
  · rw [hindex] at hi
    rw [hinstrs, hproducer]
    exact h.listed p j i hi
  · rw [hcount, h.count i (ha.live.mp hi), pairs_congr ha.size hexec fun p j => by rw [hindex]]

end Basic

/-! ## Recording the producers -/

/-- `r` is `r₀` with producers of `cur` recorded. -/
structure Recording (r₀ r : Lib.Ring OooModelInstr) (cur : Nat) : Prop where
  linked : Linked r fun _ => 0
  same : Ring.Alike unlinked r₀ r
  others : ∀ k ≠ cur, (r.entry k).regReady = (r₀.entry k).regReady ∧
    (r.entry k).numRegDependent = (r₀.entry k).numRegDependent ∧
    (r.entry k).regRawChecked = (r₀.entry k).regRawChecked
  ready : (r.entry cur).regReady = true ↔ (r.entry cur).numRegDependent = 0
  unchecked : ∀ j, (r.entry cur).regRawChecked j = false →
    ∀ p, cur ∉ (r.entry p).registersIndexDependOnMe j
  sets : ∀ p j i, i ∈ (r.entry p).registersIndexDependOnMe j →
    i = cur ∨ i ∈ (r₀.entry p).registersIndexDependOnMe j

section Recording

variable {c : Config} {r₀ r : Lib.Ring OooModelInstr} {cur prior j : Nat}

/-- The ring after `cur` has been entered under source `j` of `prior`. -/
def record (prior cur j : Nat) (r : Lib.Ring OooModelInstr) : Lib.Ring OooModelInstr :=
  modify (modify r prior (recordConsumer cur j)) cur (awaitProducer (r.entry prior).instrId j)

theorem record_cur (hne : prior ≠ cur) : (record prior cur j r).entry cur =
    awaitProducer (r.entry prior).instrId j (r.entry cur) := by
  simp [record, Core.modify, Function.update_of_ne hne.symm]

theorem record_prior (hne : prior ≠ cur) :
    (record prior cur j r).entry prior = recordConsumer cur j (r.entry prior) := by
  simp [record, Core.modify, Function.update_of_ne hne]

theorem record_other {k : Nat} (hk : k ≠ cur) (hk' : k ≠ prior) :
    (record prior cur j r).entry k = r.entry k := by
  simp [record, Core.modify, Function.update_of_ne hk, Function.update_of_ne hk']

/-- Membership in the sets: one pair more. -/
theorem mem_record (hne : prior ≠ cur) {p k i : Nat} :
    i ∈ ((record prior cur j r).entry p).registersIndexDependOnMe k ↔
      i ∈ (r.entry p).registersIndexDependOnMe k ∨ (p = prior ∧ k = j ∧ i = cur) := by
  by_cases hp : p = prior
  · subst hp
    rw [record_prior hne]
    by_cases hk : k = j
    · subst hk
      simp [recordConsumer, or_comm]
    · simp [recordConsumer, hk]
  · by_cases hc : p = cur
    · subst hc
      rw [record_cur hne]
      simp [awaitProducer, hp]
    · rw [record_other hc hp]
      simp [hp]

theorem record_executed (hne : prior ≠ cur) (p : Nat) :
    ((record prior cur j r).entry p).executed = (r.entry p).executed := by
  by_cases hc : p = cur
  · subst hc
    rw [record_cur hne]
    rfl
  · by_cases hp : p = prior
    · subst hp
      rw [record_prior hne]
      rfl
    · rw [record_other hc hp]

theorem record_unlinked (hne : prior ≠ cur) : Ring.Alike unlinked r (record prior cur j r) := by
  refine .of_entry fun p => ?_
  show unlinked ((record prior cur j r).entry p) = _
  by_cases hc : p = cur
  · subst hc
    rw [record_cur hne]
    rfl
  · by_cases hp : p = prior
    · subst hp
      rw [record_prior hne]
      rfl
    · rw [record_other hc hp]

theorem pairs_record_cur (hne : prior ≠ cur) (hprior : prior < r.size)
    (hexec : (r.entry prior).executed ≠ .completed) (hj : j < numInstrSources) :
    pairs (record prior cur j r) cur = insert (prior, j) (pairs r cur) := by
  ext ⟨p, k⟩
  rw [Finset.mem_insert, mem_pairs, mem_pairs, mem_record hne, record_executed hne]
  constructor
  · rintro ⟨hlt, hx, hmem | ⟨rfl, rfl, -⟩⟩
    · exact .inr ⟨hlt, hx, hmem⟩
    · exact .inl rfl
  · rintro (heq | ⟨hlt, hx, hmem⟩)
    · obtain ⟨rfl, rfl⟩ := Prod.mk.inj heq
      exact ⟨⟨hprior, hj⟩, hexec, .inr ⟨rfl, rfl, rfl⟩⟩
    · exact ⟨hlt, hx, .inl hmem⟩

theorem pairs_record_other (hne : prior ≠ cur) {i : Nat} (hi : i ≠ cur) :
    pairs (record prior cur j r) i = pairs r i :=
  pairs_congr rfl (fun p => by rw [record_executed hne]) fun p k => by
    rw [mem_record hne]
    exact ⟨fun hmem => hmem.resolve_right fun hx => hi hx.2.2, .inl⟩

theorem Recording.linked_record (h : Recording r₀ r cur) (hcur : r.Live cur) (hprior : r.Live prior)
    (hage : r.age prior < r.age cur) (hexec : (r.entry prior).executed ≠ .completed)
    (hj : j < numInstrSources) (hchecked : (r.entry cur).regRawChecked j = false) :
    Linked (record prior cur j r) fun _ => 0 := by
  have hne : prior ≠ cur := by
    rintro rfl
    exact absurd hage (lt_irrefl _)
  have hsame := record_unlinked (r := r) (j := j) hne
  refine ⟨(h.linked.window.modify hprior _).modify hcur _, ?_, ?_, ?_⟩
  · intro p k i hi
    rw [hsame.live, hsame.age, hsame.age]
    rcases (mem_record hne).mp hi with hi | ⟨rfl, rfl, rfl⟩
    · exact h.linked.older p k i hi
    · exact ⟨hj, hcur, hage⟩
  · intro p k i hi
    rcases (mem_record hne).mp hi with hold | ⟨rfl, rfl, rfl⟩
    · obtain ⟨hmem, hproducer⟩ := h.linked.listed p k i hold
      by_cases hc : p = cur
      · subst hc
        rw [record_cur hne]
        exact ⟨hmem, hproducer⟩
      · by_cases hp : p = prior
        · subst hp
          rw [record_prior hne]
          exact ⟨Finset.mem_insert_of_mem hmem, rfl⟩
        · rw [record_other hc hp]
          exact ⟨hmem, hproducer⟩
    · rw [record_prior hne]
      exact ⟨Finset.mem_insert_self _ _, rfl⟩
  · intro i hi
    have hcount := h.linked.count i (hsame.live.mp hi)
    by_cases hic : i = cur
    · subst hic
      have hpsize := hprior.lt_size h.linked.window.head_lt h.linked.window.wf.occ_le
      have hnew : (prior, j) ∉ pairs r i := by
        intro hmem
        rw [mem_pairs] at hmem
        exact h.unchecked j hchecked prior hmem.2.2
      rw [record_cur hne, pairs_record_cur hne hpsize hexec hj,
        Finset.card_insert_of_notMem hnew]
      show (r.entry i).numRegDependent + 1 = _
      rw [hcount]
      push_cast
      omega
    · rw [pairs_record_other hne hic, ← hcount]
      by_cases hp : i = prior
      · subst hp
        rw [record_prior hne]
        rfl
      · rw [record_other hic hp]

/-- Recording a new pair: the count of `cur` goes up by one. -/
theorem Recording.record (h : Recording r₀ r cur) (hcur : r.Live cur) (hprior : r.Live prior)
    (hage : r.age prior < r.age cur) (hexec : (r.entry prior).executed ≠ .completed)
    (hj : j < numInstrSources) (hchecked : (r.entry cur).regRawChecked j = false) :
    Recording r₀ (record prior cur j r) cur := by
  have hne : prior ≠ cur := by
    rintro rfl
    exact absurd hage (lt_irrefl _)
  have hcount := h.linked.count cur hcur
  refine ⟨h.linked_record hcur hprior hage hexec hj hchecked,
    h.same.trans (record_unlinked hne), ?_, ?_, ?_, ?_⟩
  · intro k hk
    have hold := h.others k hk
    by_cases hp : k = prior
    · subst hp
      rw [record_prior hne]
      exact hold
    · rw [record_other hk hp]
      exact hold
  · rw [record_cur hne]
    refine ⟨(fun hf => nomatch hf), fun h0 => ?_⟩
    have h0 : (r.entry cur).numRegDependent + 1 = 0 := h0
    rw [hcount] at h0
    omega
  · intro k hk p hmem
    rw [record_cur hne] at hk
    have hkj : k ≠ j := by
      rintro rfl
      simp [awaitProducer] at hk
    have hk : (r.entry cur).regRawChecked k = false := by
      simpa [awaitProducer, Function.update_of_ne hkj] using hk
    rcases (mem_record hne).mp hmem with hmem | ⟨-, rfl, -⟩
    · exact h.unchecked k hk p hmem
    · exact hkj rfl
  · intro p k i hi
    rcases (mem_record hne).mp hi with hi | ⟨-, -, rfl⟩
    · exact h.sets p k i hi
    · exact .inl rfl

/-- A visit of one producer, for the sources `js`. -/
theorem Recording.visit (js : List Nat) :
    ∀ r, Recording r₀ r cur → r.Live cur → r.Live prior → r.age prior < r.age cur →
      (r.entry prior).executed ≠ .completed → (∀ j ∈ js, j < numInstrSources) →
      Recording r₀ (js.foldl (fun r j =>
        if (r.entry cur).sourceRegisters j ≠ 0 ∧ (r.entry cur).regRawChecked j = false then
          regRawDependency c prior cur j r
        else r) r) cur := by
  induction js with
  | nil => exact fun r h _ _ _ _ _ => h
  | cons j js ih =>
    intro r h hcur hprior hage hexec hjs
    obtain ⟨hj, hjs⟩ := List.forall_mem_cons.mp hjs
    rw [List.foldl_cons]
    split
    · rename_i hcheck
      unfold regRawDependency
      split
      · have hne : prior ≠ cur := by
          rintro rfl
          exact absurd hage (lt_irrefl _)
        have hsame := record_unlinked (r := r) (j := j) hne
        have hage' : (O3.record prior cur j r).age prior < (O3.record prior cur j r).age cur := by
          rw [hsame.age, hsame.age]
          exact hage
        have hexec' : ((O3.record prior cur j r).entry prior).executed ≠ .completed := by
          rw [record_executed hne]
          exact hexec
        exact ih _ (h.record hcur hprior hage hexec hj hcheck.2) (hsame.live.mpr hcur)
          (hsame.live.mpr hprior) hage' hexec' hjs
      · exact ih r h hcur hprior hage hexec hjs
    · exact ih r h hcur hprior hage hexec hjs

theorem Recording.walk (ps : List Nat) :
    ∀ r, Recording r₀ r cur → r.Live cur →
      (∀ p ∈ ps, r₀.Live p ∧ r₀.age p < r₀.age cur) →
      Recording r₀ (ps.foldl (regDependencyOn c cur) r) cur := by
  induction ps with
  | nil => exact fun r h _ _ => h
  | cons p ps ih =>
    intro r h hcur hps
    obtain ⟨hp, hps⟩ := List.forall_mem_cons.mp hps
    have hvisit : Recording r₀ (regDependencyOn c cur r p) cur := by
      unfold regDependencyOn
      split
      · rename_i hexec
        refine Recording.visit _ r h hcur (h.same.live.mpr hp.1) ?_ hexec
          fun j hj => List.mem_range.mp hj
        rw [h.same.age, h.same.age]
        exact hp.2
      · exact h
    exact ih _ hvisit (hvisit.same.live.mpr (h.same.live.mp hcur)) hps

/-- `reg_dependency` records producers of `cur` and keeps the counts. -/
theorem regDependency_recording (h : Recording r r cur) (hcur : r.Live cur) :
    Recording r (regDependency c cur r) cur :=
  Recording.walk _ r h hcur fun _ hp => mem_priors h.linked.window hcur hp

end Recording

end O3
end ChampSim
