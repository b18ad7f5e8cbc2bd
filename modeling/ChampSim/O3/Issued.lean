import ChampSim.O3.Exact

/-!
# ChampSim.O3.Issued

Every instruction without memory operands is issued once, when all its producers are done.

* `sequence s i`         — how many instructions entered the ROB before the one at `i`.
* `Issued M c t O is s`  — a run to `s`, with the instructions issued on the way.
* `Dataflow s`           — counts, readiness and the ready lists, read off the state.
* `dataflow_exact`       — what holds of every run.
-/

namespace ChampSim
namespace O3

open Lib ChampSim.Core

variable {μ : Type}

def sequence (s : Cpu μ) (i : Nat) : Nat := s.retired.length + s.rob.age i

/-- `do_execution` was called for the front of `b`, the slot `i`. -/
structure Issue (c : Config) (s s' : Cpu μ) (b : Half) : Prop where
  front : (s.rte b).front < robSize
  due : (s.rob.entry (s.rte b).front).eventCycle ≤ s.cycle
  result : s' = (doExecution c (s.rte b).front s).popRte b

inductive Issued (M : Memory μ) (c : Config) (t : Trace) (O : μ → μ → Prop) :
    List Nat → Cpu μ → Prop
  | init (mem : μ) : Issued M c t O [] (.init mem)
  | issue {is : List Nat} {s s' : Cpu μ} {b : Half} (h : Issued M c t O is s)
    (hb : Issue c s s' b) : Issued M c t O (is ++ [sequence s (s.rte b).front]) s'
  | other {is : List Nat} {s s' : Cpu μ} (h : Issued M c t O is s) (hop : Op M c t O s s')
    (hnot : ∀ b, ¬ Issue c s s' b) : Issued M c t O is s'

variable {M : Memory μ} {c : Config} {t : Trace} {O : μ → μ → Prop} {s s' : Cpu μ}

theorem Issued.reaches {is : List Nat} (h : Issued M c t O is s) : Reaches M c t O s := by
  induction h with
  | init mem => exact ⟨mem, .refl _⟩
  | issue h hb ih =>
    obtain ⟨hfront, hdue, rfl⟩ := hb
    exact ih.call (.execute hfront hdue)
  | other h hop hnot ih => exact ih.op hop

/-- Every run has a list of issues. -/
theorem Reaches.issued (h : Reaches M c t O s) : ∃ is, Issued M c t O is s := by
  refine h.invariant (I := fun s => ∃ is, Issued M c t O is s) (fun mem => ⟨[], .init mem⟩) ?_
  rintro s s' ⟨is, hs⟩ hop
  by_cases hissue : ∃ b, Issue c s s' b
  · obtain ⟨b, hb⟩ := hissue
    exact ⟨_, hs.issue hb⟩
  · exact ⟨is, hs.other hop fun b hb => hissue ⟨b, hb⟩⟩

/-! ## The log -/

/-- The list of issues, against the state. -/
structure Log (is : List Nat) (s : Cpu μ) : Prop where
  nodup : is.Nodup
  bound : ∀ q ∈ is, q < s.retired.length + s.rob.occupancy
  live : ∀ i, s.rob.Live i → (sequence s i ∈ is ↔
    (s.rob.entry i).isMemory = false ∧ (s.rob.entry i).executed ≠ .idle)

section Log

variable {is : List Nat}

theorem log_init (mem : μ) : Log [] (.init mem) where
  nodup := List.nodup_nil
  bound := fun _ h => absurd h List.not_mem_nil
  live := by
    rintro i ⟨k, hk, -⟩
    exact absurd hk (Nat.not_lt_zero k)

/-- The steps after which each instruction stands where it stood. -/
theorem Log.congr (h : Log is s) (hretired : s'.retired = s.retired)
    (hlive : ∀ i, s'.rob.Live i ↔ s.rob.Live i) (hage : ∀ i, s'.rob.age i = s.rob.age i)
    (hocc : s'.rob.occupancy = s.rob.occupancy)
    (hentry : ∀ i, s.rob.Live i → (((s'.rob.entry i).isMemory = false ∧
      (s'.rob.entry i).executed ≠ .idle) ↔ ((s.rob.entry i).isMemory = false ∧
        (s.rob.entry i).executed ≠ .idle))) : Log is s' where
  nodup := h.nodup
  bound := by
    rw [hretired, hocc]
    exact h.bound
  live := by
    intro i hi
    have hi := (hlive i).mp hi
    rw [hentry i hi, ← h.live i hi]
    simp only [sequence, hretired, hage]

/-- The part of an instruction that the log is about. -/
def issueView (x : OooModelInstr) : Bool × Progress := (x.isMemory, x.executed)

theorem Log.alike (h : Log is s) (hretired : s'.retired = s.retired)
    (ha : Ring.Alike issueView s.rob s'.rob) : Log is s' :=
  h.congr hretired (fun _ => ha.live) ha.age ha.occupancy fun i _ => by
    have hm : (s'.rob.entry i).isMemory = (s.rob.entry i).isMemory := congrArg (·.1) (ha.entry i)
    have hx : (s'.rob.entry i).executed = (s.rob.entry i).executed := congrArg (·.2) (ha.entry i)
    rw [hm, hx]

theorem Log.push (h : Log is s) (hw : Window s.rob) (hroom : s.rob.occupancy < s.rob.size)
    {x : OooModelInstr} {d : Lib.Ring OooModelInstr} (hx : x.executed = .idle) :
    Log is { s with rob := s.rob.push x, decodeBuffer := d } := by
  have htail : s.rob.age s.rob.tail = s.rob.occupancy := by
    rw [hw.wf.tail_eq]
    exact Ring.age_idx hw.head_lt hroom
  refine ⟨h.nodup, fun q hq => Nat.lt_succ_of_lt (h.bound q hq), fun i hi => ?_⟩
  rcases (Ring.live_push x hw.wf.tail_eq).mp hi with hold | rfl
  · have hne : i ≠ s.rob.tail := by
      rintro rfl
      exact hw.wf.not_live_tail hroom hold
    show s.retired.length + s.rob.age i ∈ is ↔ ((s.rob.push x).entry i).isMemory = false ∧ _
    rw [Ring.push_entry_ne s.rob x hne]
    exact h.live i hold
  · constructor
    · intro hmem
      have hlt := h.bound _ hmem
      have hseq : s.retired.length + s.rob.age s.rob.tail <
        s.retired.length + s.rob.occupancy := hlt
      omega
    · rintro ⟨-, hne⟩
      refine absurd ?_ hne
      show ((s.rob.push x).entry s.rob.tail).executed = .idle
      rw [Ring.push_entry_tail]
      exact hx

theorem Log.pop (h : Log is s) (hw : Window s.rob) (hpos : 0 < s.rob.occupancy) (mem : μ) :
    Log is (releaseHead c { s with mem := mem }) := by
  refine ⟨h.nodup, fun q hq => ?_, fun i hi => ?_⟩
  · have hlt := h.bound q hq
    show q < (s.retired ++ [_]).length + (s.rob.occupancy - 1)
    rw [List.length_append, List.length_singleton]
    omega
  · obtain ⟨hlive, hne⟩ := (Ring.live_pop OooModelInstr.empty hw.head_lt hw.wf.occ_le hpos).mp hi
    have hage := Ring.age_pop OooModelInstr.empty hw.head_lt
      (hlive.lt_size hw.head_lt hw.wf.occ_le) hne
    have hold := h.live i hlive
    show (s.retired ++ [_]).length + (s.rob.pop .empty).age i ∈ is ↔
      ((s.rob.pop .empty).entry i).isMemory = false ∧ ((s.rob.pop .empty).entry i).executed ≠ .idle
    rw [Ring.pop_entry_ne s.rob _ hne, List.length_append, List.length_singleton, Nat.add_assoc,
      Nat.add_comm 1, hage]
    exact hold

theorem Log.issue (h : Log is s) {i : Nat} (hi : s.rob.Live i) (hm : (s.rob.entry i).isMemory = false)
    (hx : (s.rob.entry i).executed = .idle) (hw : Window s.rob) (hretired : s'.retired = s.retired)
    (hrob : s'.rob = modify s.rob i (markIssued s.cycle c.execLatency)) :
    Log (is ++ [sequence s i]) s' := by
  have hnew : sequence s i ∉ is := fun hmem => ((h.live i hi).mp hmem).2 hx
  have hseq : ∀ k, sequence s' k = sequence s k := by
    intro k
    simp only [sequence, hretired, hrob]
    rfl
  refine ⟨?_, fun q hq => ?_, fun k hk => ?_⟩
  · rw [List.nodup_append]
    refine ⟨h.nodup, List.nodup_singleton _, fun a ha b hb => ?_⟩
    rw [List.mem_singleton.mp hb]
    rintro rfl
    exact hnew ha
  · have hocc : s'.rob.occupancy = s.rob.occupancy := by
      rw [hrob]
      rfl
    rw [hretired, hocc]
    rcases List.mem_append.mp hq with hq | hq
    · exact h.bound q hq
    · rw [List.mem_singleton.mp hq]
      exact Nat.add_lt_add_left (hw.age_lt hi) _
  · have hk : s.rob.Live k := by
      rw [hrob] at hk
      exact hk
    rw [hseq, List.mem_append, List.mem_singleton, hrob]
    by_cases hki : k = i
    · subst hki
      rw [modify_self]
      exact ⟨fun _ => ⟨hm, fun hx => by cases hx⟩, fun _ => .inr rfl⟩
    · have hne : sequence s k ≠ sequence s i := by
        intro heq
        have hage : s.rob.age k = s.rob.age i := Nat.add_left_cancel heq
        refine hki ?_
        rw [← Ring.idx_age hw.head_lt (hk.lt_size hw.head_lt hw.wf.occ_le), hage,
          Ring.idx_age hw.head_lt (hi.lt_size hw.head_lt hw.wf.occ_le)]
      rw [modify_ne hki, or_iff_left hne]
      exact h.live k hk

/-- A step that is not an issue. -/
theorem Log.move (h : Log is s) (hf : Flow c s) (hm : Move c t s s') (hnot : ∀ b, ¬ Issue c s s' b) :
    Log is s' := by
  have hw := hf.dep.linked.window
  cases hm with
  | tick => exact h.alike rfl (.refl ..)
  | read env b hroom hstall hrecord hsta => exact h.alike rfl (.refl ..)
  | resume env =>
    unfold resumeFetch
    split
    · exact h.alike rfl (.refl ..)
    · exact h
  | toDecode hip hroom => exact h.alike rfl (.refl ..)
  | toRob hip hroom => exact h.push hw hroom (hf.decode _).executed
  | complete hc =>
    rename_i p
    rcases hf.completes hc with rfl | hdone
    · exact h
    · have hshape : Ring.Alike issueView (modify s.rob p markCompleted) s'.rob :=
        hdone.shape.comp issueView
      refine h.congr (by rw [hdone.rest]) (fun _ => hshape.live) hshape.age hshape.occupancy
        fun k _ => ?_
      have hk := hshape.entry k
      by_cases hkp : k = p
      · subst hkp
        rw [modify_self] at hk
        have hmem : (s'.rob.entry k).isMemory = (s.rob.entry k).isMemory := congrArg (·.1) hk
        have hexec : (s'.rob.entry k).executed = .completed := congrArg (·.2) hk
        rw [hmem, hexec, hdone.inflight]
        exact and_congr_right fun _ => ⟨fun _ hx => (by cases hx), fun _ hx => (by cases hx)⟩
      · rw [modify_ne hkp] at hk
        have hmem : (s'.rob.entry k).isMemory = (s.rob.entry k).isMemory := congrArg (·.1) hk
        have hexec : (s'.rob.entry k).executed = (s.rob.entry k).executed := congrArg (·.2) hk
        rw [hmem, hexec]
  | schedule hfetched hidle hs =>
    have hsched := hf.schedules hfetched hidle hs
    exact h.alike (by rw [hsched.rest]) (hsched.rob.comp issueView)
  | execute hi he =>
    rename_i b
    exact absurd ⟨hi, he, rfl⟩ (hnot b)
  | addStore hi hj hm ha hbefore hroom hsta hs =>
    obtain ⟨-, rfl⟩ := addStoreQueue_eq hs
    exact h.alike rfl (alike_modify (π := issueView) rfl)
  | memoryScheduled hi hall =>
    rename_i i
    rw [memoryScheduled_eq]
    refine h.congr rfl (fun _ => Iff.rfl) (fun _ => rfl) rfl fun k _ => ?_
    by_cases hk : k = i
    · subst hk
      rw [modify_self]
      have hne : ¬ (s.rob.entry k).isMemory = false := by
        rw [hi.memory]
        decide
      exact ⟨fun hx => absurd hx.1 hne, fun hx => absurd hx.1 hne⟩
    · rw [modify_ne hk]
  | retire hip hdone => exact h.pop hw (hw.occupancy_pos (hw.live_head hip)) _

theorem Issued.log (h : Issued M c t O is s) : Log is s := by
  induction h with
  | init mem => exact log_init mem
  | issue h hb ih =>
    have hf := reaches_flow h.reaches
    obtain ⟨hfront, hdue, rfl⟩ := hb
    have hwait := hf.front_waits hfront
    exact ih.issue (c := c) hwait.live hwait.memory hwait.executed hf.dep.linked.window rfl rfl
  | other h hop hnot ih =>
    have hf := reaches_flow h.reaches
    rcases hop.move with hq | hm
    · exact ih.alike (congrArg Rest.retired hq.rest) (hq.rob.comp issueView)
    · exact ih.move hf hm hnot

end Log

/-! ## Exactness -/

/-- All producers that are recorded for the instruction at `i` have completed. -/
def producersDone (s : Cpu μ) (i : Nat) : Prop :=
  ∀ p j, i ∈ (s.rob.entry p).registersIndexDependOnMe j → (s.rob.entry p).executed = .completed

/-- An instruction that may be issued and has not been. -/
def ReadyNotIssued (s : Cpu μ) (i : Nat) : Prop :=
  (s.rob.entry i).regReady = true ∧ (s.rob.entry i).executed = .idle

instance ReadyNotIssued.decidable (s : Cpu μ) (i : Nat) : Decidable (ReadyNotIssued s i) :=
  inferInstanceAs (Decidable (_ ∧ _))

structure Dataflow (s : Cpu μ) : Prop where
  count : ∀ i, s.rob.Live i → (s.rob.entry i).scheduled ≠ .idle →
    (s.rob.entry i).numRegDependent = (pairs s.rob i).card
  producers : ∀ i p j, (p, j) ∈ pairs s.rob i → s.rob.Live p
  ready : ∀ i, s.rob.Live i → (s.rob.entry i).scheduled ≠ .idle →
    ((s.rob.entry i).regReady = true ↔ (pairs s.rob i).card = 0)
  listed : ∀ i, s.rob.Live i → (s.rob.entry i).scheduled ≠ .idle →
    (s.rob.entry i).isMemory = false →
    (s.rte .zero).occurrences i + (s.rte .one).occurrences i = if ReadyNotIssued s i then 1 else 0
  /-- A completed producer leaves no consumer waiting. -/
  released : ∀ i, s.rob.Live i → (s.rob.entry i).scheduled ≠ .idle → producersDone s i →
    (s.rob.entry i).regReady = true

/-- The instructions on the list are those that were issued, each once. -/
structure IssuedOnce (is : List Nat) (s : Cpu μ) : Prop where
  nodup : is.Nodup
  entered : ∀ q ∈ is, q < s.retired.length + s.rob.occupancy
  issued : ∀ i, s.rob.Live i → (s.rob.entry i).isMemory = false →
    (sequence s i ∈ is ↔ (s.rob.entry i).executed ≠ .idle)
  /-- The instruction that `execute_instruction` would take next. -/
  next : ∀ b, (s.rte b).front < robSize → s.rob.Live (s.rte b).front ∧
    (s.rob.entry (s.rte b).front).isMemory = false ∧ ReadyNotIssued s (s.rte b).front ∧
    producersDone s (s.rte b).front

/-- The two functions that write to the ready lists find the slot free. -/
structure NeverOverwrites (c : Config) (s : Cpu μ) : Prop where
  schedule : ∀ i, (s.rob.entry i).fetched = .completed → (s.rob.entry i).scheduled = .idle →
    (doScheduling c i s).isSome
  complete : ∀ i, (completeExecution i s).isSome

theorem Dep.producersDone {s : Cpu μ} (h : Dep (fun _ => 0) s.rob) {i : Nat}
    (hempty : (pairs s.rob i).card = 0) : producersDone s i := by
  intro p j hj
  by_contra hne
  have hp := h.linked.window.lt_size (h.linked.live_producer hj)
  have hmem : (p, j) ∈ pairs s.rob i :=
    mem_pairs.mpr ⟨⟨h.linked.window.size ▸ hp, (h.linked.older p j i hj).1⟩, hne, hj⟩
  rw [Finset.card_eq_zero.mp hempty] at hmem
  exact absurd hmem (Finset.notMem_empty _)

theorem Lists.occurrences {r : Lib.Ring OooModelInstr} {rte : Half → Feed} {l : Half → List Nat}
    (h : Lists r rte l) {i : Nat} (hi : i < robSize) (b : Half) :
    (rte b).occurrences i = (l b).count i :=
  (h.holds b).occurrences_eq_count (by rw [h.mark b]; omega)

theorem Lists.total {r : Lib.Ring OooModelInstr} {rte : Half → Feed} {l : Half → List Nat}
    (h : Lists r rte l) {i : Nat} (hi : i < robSize) :
    (Waiting r i → (rte .zero).occurrences i + (rte .one).occurrences i = 1) ∧
      (¬ Waiting r i → (rte .zero).occurrences i + (rte .one).occurrences i = 0) := by
  rw [h.occurrences hi, h.occurrences hi]
  constructor
  · intro hwait
    obtain ⟨b, hb⟩ := (h.mem i).mpr hwait
    cases b with
    | zero => rw [List.count_eq_one_of_mem (h.nodup _) hb,
        List.count_eq_zero_of_not_mem (h.disjoint i hb)]
    | one =>
      have hout : i ∉ l .zero := fun hzero => h.disjoint i hzero hb
      rw [List.count_eq_one_of_mem (h.nodup _) hb, List.count_eq_zero_of_not_mem hout]
  · intro hnot
    have hout : ∀ b, i ∉ l b := fun b hb => hnot ((h.mem i).mp ⟨b, hb⟩)
    rw [List.count_eq_zero_of_not_mem (hout _), List.count_eq_zero_of_not_mem (hout _)]

theorem Flow.count (h : Flow c s) {i : Nat} (hi : s.rob.Live i) :
    (s.rob.entry i).numRegDependent = (pairs s.rob i).card := h.dep.linked.count i hi

theorem Flow.ready (h : Flow c s) {i : Nat} (hi : s.rob.Live i)
    (hs : (s.rob.entry i).scheduled ≠ .idle) :
    (s.rob.entry i).regReady = true ↔ (pairs s.rob i).card = 0 := by
  rw [h.dep.ready i hs, h.count hi]
  exact Int.natCast_eq_zero

theorem Flow.dataflow (h : Flow c s) : Dataflow s where
  count := fun i hi _ => h.count hi
  producers := fun _ _ _ hmem => h.dep.linked.live_producer (mem_pairs.mp hmem).2.2
  ready := fun i hi hs => h.ready hi hs
  listed := by
    intro i hi hs hm
    obtain ⟨l, hl⟩ := h.lists
    obtain ⟨hone, hzero⟩ := hl.total (h.dep.linked.window.lt_size hi)
    split
    · rename_i hready
      exact hone ⟨hi, hm, hs, hready.1, hready.2⟩
    · rename_i hready
      exact hzero fun hwait => hready ⟨hwait.ready, hwait.executed⟩
  released := by
    intro i hi hs hdone
    refine (h.ready hi hs).mpr (Finset.card_eq_zero.mpr ?_)
    ext ⟨p, j⟩
    rw [mem_pairs]
    exact ⟨fun hmem => absurd (hdone p j hmem.2.2) hmem.2.1,
      fun hmem => absurd hmem (Finset.notMem_empty _)⟩

theorem Issued.once {is : List Nat} (h : Issued M c t O is s) : IssuedOnce is s where
  nodup := h.log.nodup
  entered := h.log.bound
  issued := fun i hi hm => (h.log.live i hi).trans (and_iff_right hm)
  next := by
    intro b hb
    have hf := reaches_flow h.reaches
    have hwait := hf.front_waits hb
    exact ⟨hwait.live, hwait.memory, ⟨hwait.ready, hwait.executed⟩,
      hf.dep.producersDone ((hf.ready hwait.live hwait.scheduled).mp hwait.ready)⟩

theorem Flow.neverOverwrites (h : Flow c s) : NeverOverwrites c s where
  schedule := by
    intro i hfetched hidle
    obtain ⟨l, hl⟩ := h.lists
    have hi : s.rob.Live i :=
      h.dep.linked.window.live_of (·.fetched) (fun _ => rfl) (by rw [hfetched]; decide)
    obtain ⟨s', -, hrun, -⟩ := doScheduling_flow (c := c) h.dep hl hi hidle
    rw [hrun]
    rfl
  complete := by
    intro i
    obtain ⟨l, hl⟩ := h.lists
    obtain ⟨s', -, hrun, -⟩ := completeExecution_flow h.dep hl i
    rw [hrun]
    rfl

theorem dataflow_exact {is : List Nat} (h : Issued M c t O is s) :
    Dataflow s ∧ IssuedOnce is s ∧ NeverOverwrites c s :=
  have hf := reaches_flow h.reaches
  ⟨hf.dataflow, h.once, hf.neverOverwrites⟩

/-- Each instruction of the run reads the register that the one before it writes. -/
def chained : InputInstr where
  ip := 64
  isBranch := 0
  branchTaken := 0
  destinationRegisters := fun i => if i = 0 then 1 else 0
  sourceRegisters := fun i => if i = 0 then 1 else 0
  destinationMemory := fun _ => 0
  sourceMemory := fun _ => 0
  asid := fun _ => 0

theorem dataflow_exact_chained : ∃ is s, echoRun chained 8 = some s ∧
    s.completedExecutions = 1 ∧ Dataflow s ∧ IssuedOnce is s ∧ NeverOverwrites echoConfig s := by
  have hrun : (echoRun chained 8).map (·.completedExecutions) = some 1 := by decide +kernel
  obtain ⟨s, hs, hone⟩ := Option.map_eq_some_iff.mp hrun
  obtain ⟨is, his⟩ := (echoRun_reaches hs).issued
  exact ⟨is, s, hs, hone, dataflow_exact his⟩

end O3
end ChampSim
