import ChampSim.O3.Exact
import ChampSim.O3.Rename

/-!
# ChampSim.O3.Writers

Which producer `reg_dependency` records for a source.

* `Writer`, `Youngest`    — the older instructions that write a source, and the youngest of them.
* `firstPending`          — the first one, in the order of the walk, that has not completed.
* `regDependency_sources` — the walk records just that one.
* `NamesYoungest`         — the youngest writer is recorded, unless it has completed.
* `names_youngest_iff`    — it is, where no completed youngest writer hides a pending one.
-/

namespace ChampSim
namespace O3

open Lib ChampSim.Core

variable {μ : Type} {c : Config} {s : Cpu μ} {r r₀ : Lib.Ring OooModelInstr} {i j p : Nat}

/-- The instruction at `p` is older than the one at `i` and writes its source `j`. -/
structure Writer (c : Config) (r : Lib.Ring OooModelInstr) (i j p : Nat) : Prop where
  live : r.Live p
  older : r.age p < r.age i
  writes : writesSource c (r.entry p) (r.entry i) j = true

def Pending (r : Lib.Ring OooModelInstr) (p : Nat) : Prop := (r.entry p).executed ≠ .completed

instance Pending.decidable (r : Lib.Ring OooModelInstr) (p : Nat) : Decidable (Pending r p) :=
  inferInstanceAs (Decidable (_ ≠ _))

structure Youngest (c : Config) (r : Lib.Ring OooModelInstr) (i j p : Nat) : Prop where
  writer : Writer c r i j p
  youngest : ∀ q, Writer c r i j q → r.age q ≤ r.age p

/-- What `do_scheduling` should record for the instruction at `i`. -/
structure NamesYoungest (c : Config) (i : Nat) (r r' : Lib.Ring OooModelInstr) : Prop where
  recorded : ∀ j < numInstrSources, ∀ p,
    i ∈ (r'.entry p).registersIndexDependOnMe j ↔ Youngest c r i j p ∧ Pending r p
  /-- A source with no writer, or with a completed youngest one, is ready. -/
  checked : ∀ j < numInstrSources, (r'.entry i).regRawChecked j = true ↔
    ∃ p, Youngest c r i j p ∧ Pending r p
  ready : (r'.entry i).regReady = true ↔
    ∀ j < numInstrSources, ∀ p, Youngest c r i j p → ¬ Pending r p

/-! ## The walk -/

def firstPending (c : Config) (r : Lib.Ring OooModelInstr) (i j : Nat) (ps : List Nat) :
    Option Nat :=
  ps.find? fun p => Pending r p ∧ writesSource c (r.entry p) (r.entry i) j

theorem writesSource_source {x y : OooModelInstr} (h : writesSource c x y j = true) :
    y.sourceRegisters j ≠ 0 := by
  obtain ⟨k, -, hk⟩ := List.any_eq_true.mp h
  obtain ⟨hne, heq⟩ := Bool.and_eq_true_iff.mp hk
  rw [← beq_iff_eq.mp heq]
  exact bne_iff_ne.mp hne

/-- One source of one visit. -/
theorem visit_source (p i j : Nat) (r : Lib.Ring OooModelInstr) :
    (if (r.entry i).sourceRegisters j ≠ 0 ∧ (r.entry i).regRawChecked j = false then
      regRawDependency c p i j r else r) =
    if writesSource c (r.entry p) (r.entry i) j = true ∧ (r.entry i).regRawChecked j = false then
      record p i j r else r := by
  unfold regRawDependency
  by_cases hw : writesSource c (r.entry p) (r.entry i) j = true
  · simp only [hw, writesSource_source hw, ne_eq, not_false_eq_true, true_and, if_true]
    rfl
  · simp only [hw, if_false, ite_self, false_and, Bool.false_eq_true]

/-- `r` is `r₀` after a visit of the sources `js`. -/
structure Visited (c : Config) (r₀ r : Lib.Ring OooModelInstr) (p i : Nat) (js : List Nat) :
    Prop where
  same : Ring.Alike unlinked r₀ r
  checked : ∀ k, (r.entry i).regRawChecked k = true ↔ (r₀.entry i).regRawChecked k = true ∨
    (k ∈ js ∧ writesSource c (r₀.entry p) (r₀.entry i) k = true)
  sets : ∀ q k, i ∈ (r.entry q).registersIndexDependOnMe k ↔
    i ∈ (r₀.entry q).registersIndexDependOnMe k ∨ (q = p ∧ k ∈ js ∧
      (r₀.entry i).regRawChecked k = false ∧ writesSource c (r₀.entry p) (r₀.entry i) k = true)

theorem visit_sources (hne : p ≠ i) (js : List Nat) : ∀ r₀, js.Nodup →
    Visited c r₀ (js.foldl (fun r j =>
      if (r.entry i).sourceRegisters j ≠ 0 ∧ (r.entry i).regRawChecked j = false then
        regRawDependency c p i j r
      else r) r₀) p i js := by
  induction js with
  | nil =>
    intro r₀ _
    exact ⟨.refl .., by simp, by simp⟩
  | cons j js ih =>
    intro r₀ hnodup
    obtain ⟨hnot, hnodup⟩ := List.nodup_cons.mp hnodup
    rw [List.foldl_cons, visit_source]
    split
    · rename_i hrecord
      have hrest := ih (record p i j r₀) hnodup
      have hsame := record_unlinked (r := r₀) (j := j) hne
      have hwrites : ∀ k, writesSource c ((record p i j r₀).entry p) ((record p i j r₀).entry i) k =
          writesSource c (r₀.entry p) (r₀.entry i) k := by
        intro k
        rw [record_prior hne, record_cur hne]
        rfl
      have hchecked : ∀ k, ((record p i j r₀).entry i).regRawChecked k =
          Function.update (r₀.entry i).regRawChecked j true k := by
        intro k
        rw [record_cur hne]
        rfl
      refine ⟨hsame.trans hrest.same, fun k => ?_, fun q k => ?_⟩
      · rw [hrest.checked, hchecked, hwrites]
        by_cases hk : k = j
        · subst hk
          simp [hrecord.1]
        · simp [hk]
      · rw [hrest.sets, hchecked, hwrites, mem_record hne]
        by_cases hk : k = j
        · subst hk
          simp [hrecord, hnot]
        · simp [hk]
    · rename_i hskip
      have hrest := ih r₀ hnodup
      refine ⟨hrest.same, fun k => ?_, fun q k => ?_⟩
      · rw [hrest.checked]
        by_cases hk : k = j
        · subst hk
          cases hc : (r₀.entry i).regRawChecked k
          · simp [hc] at hskip
            simp [hskip]
          · simp
        · simp [hk]
      · rw [hrest.sets]
        by_cases hk : k = j
        · subst hk
          cases hc : (r₀.entry i).regRawChecked k
          · simp [hc] at hskip
            simp [hskip]
          · simp
        · simp [hk]

theorem alike_writes (h : Ring.Alike unlinked r₀ r) (p i j : Nat) :
    writesSource c (r.entry p) (r.entry i) j = writesSource c (r₀.entry p) (r₀.entry i) j := by
  have hdest : (r.entry p).destinationRegisters = (r₀.entry p).destinationRegisters :=
    (congrArg OooModelInstr.destinationRegisters (h.entry p) :)
  have hsource : (r.entry i).sourceRegisters = (r₀.entry i).sourceRegisters :=
    (congrArg OooModelInstr.sourceRegisters (h.entry i) :)
  unfold writesSource
  rw [hdest, hsource]

theorem firstPending_snoc (ps : List Nat) (p : Nat) :
    firstPending c r i j (ps ++ [p]) = (firstPending c r i j ps).or
      (if Pending r p ∧ writesSource c (r.entry p) (r.entry i) j = true then some p else none) := by
  unfold firstPending
  rw [List.find?_append, List.find?_singleton]
  simp only [decide_eq_true_eq]

/-- `r` is `r₀` after the visits of `ps`. -/
structure Walked (c : Config) (r₀ r : Lib.Ring OooModelInstr) (i : Nat) (ps : List Nat) :
    Prop where
  same : Ring.Alike unlinked r₀ r
  checked : ∀ j, (r.entry i).regRawChecked j = true ↔
    j < numInstrSources ∧ (firstPending c r₀ i j ps).isSome
  sets : ∀ q j, i ∈ (r.entry q).registersIndexDependOnMe j ↔
    j < numInstrSources ∧ firstPending c r₀ i j ps = some q

theorem walk_sources (hclean : ∀ q j, i ∉ (r₀.entry q).registersIndexDependOnMe j)
    (hunchecked : ∀ j, (r₀.entry i).regRawChecked j = false) (ps : List Nat) :
    (∀ p ∈ ps, p ≠ i) → Walked c r₀ (ps.foldl (regDependencyOn c i) r₀) i ps := by
  induction ps using List.reverseRecOn with
  | nil =>
    intro _
    refine ⟨.refl .., fun j => ?_, fun q j => ?_⟩
    · simp [hunchecked, firstPending]
    · simp [hclean, firstPending]
  | append_singleton ps p ih =>
    intro hps
    have hw := ih fun q hq => hps q (List.mem_append_left _ hq)
    have hne : p ≠ i := hps p (List.mem_append_right _ (List.mem_singleton_self p))
    rw [List.foldl_append, List.foldl_cons, List.foldl_nil]
    generalize ps.foldl (regDependencyOn c i) r₀ = r at hw
    have hpending : (r.entry p).executed ≠ .completed ↔ Pending r₀ p := by
      have hexec : (r.entry p).executed = (r₀.entry p).executed :=
        (congrArg OooModelInstr.executed (hw.same.entry p) :)
      unfold Pending
      rw [hexec]
    unfold regDependencyOn
    by_cases hp : Pending r₀ p
    · rw [if_pos (hpending.mpr hp)]
      have hv := visit_sources (c := c) hne (List.range numInstrSources) r List.nodup_range
      have hwrites := fun k => alike_writes (c := c) hw.same p i k
      refine ⟨hw.same.trans hv.same, fun k => ?_, fun q k => ?_⟩
      · rw [hv.checked, hw.checked, hwrites, firstPending_snoc, List.mem_range]
        by_cases hk : k < numInstrSources
        · cases firstPending c r₀ i k ps with
          | none => simp [hk, hp]
          | some q => simp [hk]
        · simp [hk]
      · have hchecked : (r.entry i).regRawChecked k = false ↔
            ¬ (k < numInstrSources ∧ (firstPending c r₀ i k ps).isSome) := by
          rw [← hw.checked, Bool.not_eq_true]
        rw [hv.sets, hw.sets, hwrites, hchecked, firstPending_snoc, List.mem_range]
        by_cases hk : k < numInstrSources
        · cases firstPending c r₀ i k ps with
          | none =>
            have hcomm : (q = p) ↔ (p = q) := ⟨Eq.symm, Eq.symm⟩
            simp [hk, hp, hcomm, and_comm]
          | some q => simp [hk]
        · simp [hk]
    · rw [if_neg (hpending.not.mpr hp)]
      refine ⟨hw.same, fun k => ?_, fun q k => ?_⟩
      · rw [hw.checked, firstPending_snoc, if_neg fun hx => hp hx.1, Option.or_none]
      · rw [hw.sets, firstPending_snoc, if_neg fun hx => hp hx.1, Option.or_none]

/-! ## The order of the walk -/

/-- The youngest pending writer. -/
structure LastPending (c : Config) (r : Lib.Ring OooModelInstr) (i j p : Nat) : Prop where
  writer : Writer c r i j p
  pending : Pending r p
  last : ∀ q, Writer c r i j q → r.age p < r.age q → ¬ Pending r q

theorem firstPending_priors (h : Window r) (hi : r.Live i) :
    firstPending c r i j (priors r i) = some p ↔ LastPending c r i j p := by
  obtain ⟨k, hk, rfl⟩ := hi
  have hocc := h.wf.occ_le
  have hage : ∀ a < r.size, r.age (Ring.idx r.size r.head a) = a := fun a ha =>
    Ring.age_idx h.head_lt ha
  rw [priors_eq h hk]
  unfold firstPending
  rw [Ring.find?_reverse_map_range_eq_some]
  simp only [decide_eq_true_eq, decide_eq_false_iff_not]
  constructor
  · rintro ⟨a, ha, rfl, ⟨hp, hw⟩, hlast⟩
    refine ⟨⟨⟨a, by omega, rfl⟩, ?_, hw⟩, hp, fun q hq hage' hpq => ?_⟩
    · rw [hage a (by omega), hage k (by omega)]
      exact ha
    · obtain ⟨b, hb, rfl⟩ := hq.live
      have hlt := hq.older
      rw [hage b (by omega), hage k (by omega)] at hlt
      rw [hage a (by omega), hage b (by omega)] at hage'
      exact hlast b hlt hage' ⟨hpq, hq.writes⟩
  · rintro ⟨hw, hp, hlast⟩
    obtain ⟨a, ha, rfl⟩ := hw.live
    have hlt := hw.older
    rw [hage a (by omega), hage k (by omega)] at hlt
    refine ⟨a, hlt, rfl, ⟨hp, hw.writes⟩, fun b hb hab hx => ?_⟩
    refine hlast _ ⟨⟨b, by omega, rfl⟩, ?_, hx.2⟩ ?_ hx.1
    · rw [hage b (by omega), hage k (by omega)]
      exact hb
    · rw [hage a (by omega), hage b (by omega)]
      exact hab

/-- Among the writers with `Q` there is a youngest one. -/
theorem exists_last {Q : Nat → Prop} (n : Nat) : ∀ {q : Nat}, Writer c r i j q → Q q →
    r.age i - r.age q ≤ n →
    ∃ p, Writer c r i j p ∧ Q p ∧ ∀ q, Writer c r i j q → r.age p < r.age q → ¬ Q q := by
  induction n with
  | zero =>
    intro q hq _ hn
    have := hq.older
    omega
  | succ n ih =>
    intro q hq hQ hn
    by_cases hlast : ∀ q', Writer c r i j q' → r.age q < r.age q' → ¬ Q q'
    · exact ⟨q, hq, hQ, hlast⟩
    · obtain ⟨q', hq', hlt, hQ'⟩ : ∃ q', Writer c r i j q' ∧ r.age q < r.age q' ∧ Q q' := by
        by_contra hnone
        exact hlast fun q' hq' hlt hQ' => hnone ⟨q', hq', hlt, hQ'⟩
      exact ih hq' hQ' (by omega)

theorem exists_youngest {q : Nat} (hq : Writer c r i j q) : ∃ p, Youngest c r i j p := by
  obtain ⟨p, hp, -, hlast⟩ := exists_last (Q := fun _ => True) _ hq trivial le_rfl
  exact ⟨p, hp, fun q hq => Nat.not_lt.mp fun hlt => hlast q hq hlt trivial⟩

theorem exists_lastPending {q : Nat} (hq : Writer c r i j q) (hp : Pending r q) :
    ∃ p, LastPending c r i j p := by
  obtain ⟨p, hw, hp, hlast⟩ := exists_last (Q := Pending r) _ hq hp le_rfl
  exact ⟨p, hw, hp, hlast⟩

theorem Youngest.unique (hw : Window r) {q : Nat} (hp : Youngest c r i j p)
    (hq : Youngest c r i j q) : p = q := by
  have hage : r.age p = r.age q := Nat.le_antisymm (hq.youngest p hp.writer) (hp.youngest q hq.writer)
  rw [← Ring.idx_age hw.head_lt (hp.writer.live.lt_size hw.head_lt hw.wf.occ_le),
    ← Ring.idx_age hw.head_lt (hq.writer.live.lt_size hw.head_lt hw.wf.occ_le), hage]

theorem Youngest.lastPending (h : Youngest c r i j p) (hp : Pending r p) :
    LastPending c r i j p :=
  ⟨h.writer, hp, fun q hq hlt => absurd (h.youngest q hq) (Nat.not_le.mpr hlt)⟩

/-! ## What is recorded -/

/-- What `do_scheduling` records. -/
structure NamesPending (c : Config) (i : Nat) (r r' : Lib.Ring OooModelInstr) : Prop where
  recorded : ∀ j < numInstrSources, ∀ p,
    i ∈ (r'.entry p).registersIndexDependOnMe j ↔ LastPending c r i j p
  checked : ∀ j < numInstrSources, (r'.entry i).regRawChecked j = true ↔
    ∃ p, LastPending c r i j p
  ready : (r'.entry i).regReady = true ↔
    ∀ j < numInstrSources, ∀ p, ¬ LastPending c r i j p

theorem alike_lastPending (h : Ring.Alike unlinked r₀ r) :
    LastPending c r i j p ↔ LastPending c r₀ i j p := by
  have hwriter : ∀ q, Writer c r i j q ↔ Writer c r₀ i j q := fun q =>
    ⟨fun hq => ⟨h.live.mp hq.live, by rw [← h.age, ← h.age]; exact hq.older,
      (alike_writes h q i j).symm.trans hq.writes⟩,
    fun hq => ⟨h.live.mpr hq.live, by rw [h.age, h.age]; exact hq.older,
      (alike_writes h q i j).trans hq.writes⟩⟩
  have hpending : ∀ q, Pending r q ↔ Pending r₀ q := by
    intro q
    have hexec : (r.entry q).executed = (r₀.entry q).executed :=
      (congrArg OooModelInstr.executed (h.entry q) :)
    unfold Pending
    rw [hexec]
  constructor
  · rintro ⟨hw, hp, hlast⟩
    refine ⟨(hwriter p).mp hw, (hpending p).mp hp, fun q hq hlt hpq => ?_⟩
    exact hlast q ((hwriter q).mpr hq) (by rw [h.age, h.age]; exact hlt) ((hpending q).mpr hpq)
  · rintro ⟨hw, hp, hlast⟩
    refine ⟨(hwriter p).mpr hw, (hpending p).mpr hp, fun q hq hlt hpq => ?_⟩
    rw [h.age, h.age] at hlt
    exact hlast q ((hwriter q).mp hq) hlt ((hpending q).mp hpq)

theorem Recording.ready_iff (h : Recording r₀ r i) (hi : r.Live i) :
    (r.entry i).regReady = true ↔ pairs r i = ∅ := by
  rw [h.ready, h.linked.count i hi, ← Finset.card_eq_zero]
  omega

theorem regDependency_sources (h : Dep (fun _ => 0) r) (hi : r.Live i)
    (hidle : (r.entry i).scheduled = .idle) :
    NamesPending c i r (regDependency c i (modify r i markReady)) := by
  have hsame : Ring.Alike unlinked r (modify r i markReady) := alike_modify rfl
  have hwindow := h.linked.window.modify hi markReady
  have hclean : ∀ q j, i ∉ ((modify r i markReady).entry q).registersIndexDependOnMe j := by
    intro q j hmem
    have hsets : ((modify r i markReady).entry q).registersIndexDependOnMe =
        (r.entry q).registersIndexDependOnMe :=
      (alike_modify (π := OooModelInstr.registersIndexDependOnMe) (f := markReady) rfl).entry q
    rw [hsets] at hmem
    exact h.scheduled q j i hmem hidle
  have hunchecked : ∀ j, ((modify r i markReady).entry i).regRawChecked j = false := by
    intro j
    rw [modify_self]
    exact congrFun (h.fresh i hidle).2.2 j
  have hrec := regDependency_recording (c := c) (h.recording hi hidle)
    (show (modify r i markReady).Live i from hi)
  have hwalk : Walked c (modify r i markReady) (regDependency c i (modify r i markReady)) i
      (priors (modify r i markReady) i) := by
    refine walk_sources hclean hunchecked _ fun p hp => ?_
    rintro rfl
    exact absurd (mem_priors hwindow hi hp).2 (lt_irrefl _)
  have hfirst : ∀ j p, firstPending c (modify r i markReady) i j
      (priors (modify r i markReady) i) = some p ↔ LastPending c r i j p := fun j p =>
    (firstPending_priors hwindow hi).trans (alike_lastPending hsame)
  have hrecorded : ∀ j < numInstrSources, ∀ p, i ∈ ((regDependency c i
      (modify r i markReady)).entry p).registersIndexDependOnMe j ↔ LastPending c r i j p := by
    intro j hj p
    rw [hwalk.sets, hfirst]
    exact and_iff_right hj
  refine ⟨hrecorded, fun j hj => ?_, ?_⟩
  · rw [hwalk.checked, Option.isSome_iff_exists]
    simp only [hfirst, hj, true_and]
  · have hall := hsame.trans hrec.same
    rw [hrec.ready_iff (hall.live.mpr hi), Finset.eq_empty_iff_forall_notMem]
    constructor
    · intro hempty j hj p hp
      refine hempty (p, j) (mem_pairs.mpr ⟨⟨?_, hj⟩, ?_, (hrecorded j hj p).mpr hp⟩)
      · rw [hall.size]
        exact hp.writer.live.lt_size h.linked.window.head_lt h.linked.window.wf.occ_le
      · exact ((alike_lastPending hall).mpr hp).pending
    · rintro hnone ⟨p, j⟩ hmem
      obtain ⟨⟨-, hj⟩, -, hset⟩ := mem_pairs.mp hmem
      exact hnone j hj p ((hrecorded j hj p).mp hset)

theorem doScheduling_names {s' : Cpu μ} (h : Dep (fun _ => 0) s.rob) (hi : s.rob.Live i)
    (hidle : (s.rob.entry i).scheduled = .idle) (hs : doScheduling c i s = some s') :
    NamesPending c i s.rob s'.rob := by
  have hnames := regDependency_sources (c := c) h hi hidle
  obtain ⟨f, next, rte, rfl, hf, -⟩ := doScheduling_does hs
  generalize regDependency c i (modify s.rob i markReady) = r at hnames
  have ha : Ring.Alike unstamped r (modify r i f) := alike_modify (hf _)
  have hsets : ∀ p, ((modify r i f).entry p).registersIndexDependOnMe =
      (r.entry p).registersIndexDependOnMe := fun p =>
    (congrArg OooModelInstr.registersIndexDependOnMe (ha.entry p) :)
  have hchecked : ((modify r i f).entry i).regRawChecked = (r.entry i).regRawChecked :=
    (congrArg OooModelInstr.regRawChecked (ha.entry i) :)
  have hready : ((modify r i f).entry i).regReady = (r.entry i).regReady :=
    (congrArg OooModelInstr.regReady (ha.entry i) :)
  refine ⟨fun j hj p => ?_, fun j hj => ?_, ?_⟩
  · show i ∈ ((modify r i f).entry p).registersIndexDependOnMe j ↔ _
    rw [hsets]
    exact hnames.recorded j hj p
  · show ((modify r i f).entry i).regRawChecked j = true ↔ _
    rw [hchecked]
    exact hnames.checked j hj
  · show ((modify r i f).entry i).regReady = true ↔ _
    rw [hready]
    exact hnames.ready

/-- A pending writer is recorded in place of a younger one that has completed. -/
theorem names_youngest_iff (h : Flow c s) (hi : s.rob.Live i)
    (hidle : (s.rob.entry i).scheduled = .idle) :
    ∃ s', doScheduling c i s = some s' ∧
      (NamesYoungest c i s.rob s'.rob ↔
        ∀ j < numInstrSources, ∀ p q, Youngest c s.rob i j p → ¬ Pending s.rob p →
          Writer c s.rob i j q → ¬ Pending s.rob q) := by
  obtain ⟨l, hl⟩ := h.lists
  have hw := h.dep.linked.window
  obtain ⟨s', -, hs', -⟩ := doScheduling_flow (c := c) h.dep hl hi hidle
  have hnames := doScheduling_names h.dep hi hidle hs'
  refine ⟨s', hs', fun hyoungest j hj p q hp hdone hq hpending => ?_, fun hcond => ?_⟩
  · obtain ⟨p', hp'⟩ := exists_lastPending hq hpending
    obtain ⟨hyoung, hpending'⟩ :=
      (hyoungest.recorded j hj p').mp ((hnames.recorded j hj p').mpr hp')
    obtain rfl := hp.unique hw hyoung
    exact hdone hpending'
  · have hsame : ∀ j < numInstrSources, ∀ p, LastPending c s.rob i j p ↔
        Youngest c s.rob i j p ∧ Pending s.rob p := by
      intro j hj p
      refine ⟨fun hp => ?_, fun hp => hp.1.lastPending hp.2⟩
      obtain ⟨y, hy⟩ := exists_youngest hp.writer
      have hpending : Pending s.rob y := by
        by_contra hdone
        exact hcond j hj y p hy hdone hp.writer hp.pending
      have hage : s.rob.age y ≤ s.rob.age p := Nat.not_lt.mp fun hlt =>
        hp.last y hy.writer hlt hpending
      exact ⟨⟨hp.writer, fun q hq => (hy.youngest q hq).trans hage⟩, hp.pending⟩
    refine ⟨fun j hj p => (hnames.recorded j hj p).trans (hsame j hj p), fun j hj => ?_, ?_⟩
    · exact (hnames.checked j hj).trans (exists_congr (hsame j hj))
    · refine hnames.ready.trans (forall₃_congr fun j hj p => ?_)
      rw [hsame j hj p, not_and]

/-! ## A run -/

/-- Takes every request, and answers none of the DTLB. -/
def silentDtlb : Memory (Server → List Packet) :=
  { echo with
    processed := fun server cycle mem =>
      if server = .dtlb then none else echo.processed server cycle mem }

def usingRegisters (destinations sources : List UInt8) (load : Nat) : InputInstr :=
  { InputInstr.empty with
    ip := 64
    destinationRegisters := fun k => destinations.getD k 0
    sourceRegisters := fun k => sources.getD k 0
    sourceMemory := fun k => if k = 0 then load else 0 }

/-- A load writes the registers 5 and 6, then 5 is written again; both are read later. -/
def rewriting : Trace :=
  ⟨[usingRegisters [5, 6] [] 4096, usingRegisters [5] [] 0, usingRegisters [] [] 0,
    usingRegisters [] [] 0, usingRegisters [] [] 0, usingRegisters [] [5] 0,
    usingRegisters [] [6] 0], by simp⟩

def rewritingRun (n : Nat) : Option (Cpu (Server → List Packet)) :=
  run (cycle silentDtlb echoConfig rewriting) (.init fun _ => []) (List.replicate n echoTurn)

theorem flow_rewritingRun {n : Nat} {s : Cpu (Server → List Packet)}
    (h : rewritingRun n = some s) : Flow echoConfig s := by
  refine reaches_flow (M := silentDtlb) (t := rewriting) (O := Eq)
    (run_reaches (fun turn hturn => ?_) h)
  obtain rfl := List.eq_of_mem_replicate hturn
  exact fun mem mem' hmem => Option.some.inj hmem

/-- The reader of 5 at slot 6 waits for the load at slot 1, and not for the write at slot 2. -/
theorem names_older_writer : ∃ s, rewritingRun 9 = some s ∧ Flow echoConfig s ∧ s.rob.Live 6 ∧
    (s.rob.entry 6).scheduled = .idle ∧
    ¬ ∃ s', doScheduling echoConfig 6 s = some s' ∧ NamesYoungest echoConfig 6 s.rob s'.rob := by
  have hrun : (rewritingRun 9).map (fun s =>
      ((s.rob.size, s.rob.head, s.rob.occupancy, (s.rob.entry 6).scheduled),
        writesSource echoConfig (s.rob.entry 2) (s.rob.entry 6) 0,
        (doScheduling echoConfig 6 s).map fun s' =>
          decide (6 ∈ (s'.rob.entry 1).registersIndexDependOnMe 0))) =
      some ((352, 0, 12, .idle), true, some true) := by decide +kernel
  obtain ⟨s, hs, heq⟩ := Option.map_eq_some_iff.mp hrun
  obtain ⟨⟨hsize, hhead, hocc, hidle⟩, hwrites, hcode⟩ : (_ ∧ _ ∧ _ ∧ _) ∧ _ ∧ _ := by
    simpa using heq
  have hlive : ∀ k < 12, s.rob.Live k := fun k hk =>
    ⟨k, by omega, by rw [hsize, hhead]; unfold Ring.idx; rw [if_pos (by omega)]; omega⟩
  have hage : ∀ k, s.rob.age k = k := fun k => by
    unfold Ring.age
    rw [hhead, if_pos (Nat.zero_le k), Nat.sub_zero]
  refine ⟨s, hs, flow_rewritingRun hs, hlive 6 (by decide), hidle, ?_⟩
  rintro ⟨s', hs', hnames⟩
  rw [hs'] at hcode
  have hset : 6 ∈ (s'.rob.entry 1).registersIndexDependOnMe 0 := by simpa using hcode
  have hyoungest := ((hnames.recorded 0 (by decide) 1).mp hset).1.youngest 2
    ⟨hlive 2 (by decide), by rw [hage, hage]; decide, hwrites⟩
  rw [hage, hage] at hyoungest
  exact absurd hyoungest (by decide)

/-- The reader of 6 at slot 7 waits for the load, the youngest writer of 6. -/
theorem names_youngest_rewriting : ∃ s s', rewritingRun 9 = some s ∧
    doScheduling echoConfig 7 s = some s' ∧ NamesYoungest echoConfig 7 s.rob s'.rob ∧
    7 ∈ (s'.rob.entry 1).registersIndexDependOnMe 0 := by
  have hrun : (rewritingRun 9).map (fun s =>
      ((s.rob.size, s.rob.head, s.rob.occupancy, (s.rob.entry 7).scheduled),
        (List.range numInstrSources).all (fun j => (List.range 12).all fun k =>
          !writesSource echoConfig (s.rob.entry k) (s.rob.entry 7) j || decide (Pending s.rob k)),
        (doScheduling echoConfig 7 s).map fun s' =>
          decide (7 ∈ (s'.rob.entry 1).registersIndexDependOnMe 0))) =
      some ((352, 0, 12, .idle), true, some true) := by decide +kernel
  obtain ⟨s, hs, heq⟩ := Option.map_eq_some_iff.mp hrun
  obtain ⟨⟨hsize, hhead, hocc, hidle⟩, hpending, hcode⟩ : (_ ∧ _ ∧ _ ∧ _) ∧ _ ∧ _ := by
    simpa using heq
  have hidx : ∀ k < 12, Ring.idx s.rob.size s.rob.head k = k := fun k hk => by
    rw [hsize, hhead]
    unfold Ring.idx
    rw [if_pos (by omega), Nat.zero_add]
  obtain ⟨s', hs', hiff⟩ := names_youngest_iff (c := echoConfig) (flow_rewritingRun hs) (i := 7)
    ⟨7, by omega, (hidx 7 (by decide)).symm⟩ hidle
  rw [hs'] at hcode
  refine ⟨s, s', hs, hs', hiff.mpr fun j hj p q hp hdone _ => absurd ?_ hdone, by simpa using hcode⟩
  obtain ⟨k, hk, rfl⟩ := hp.writer.live
  rw [hocc] at hk
  have hwrites := hp.writer.writes
  rw [hidx k hk] at hwrites ⊢
  exact (hpending j hj k hk).resolve_left (by simp [hwrites])

end O3
end ChampSim
