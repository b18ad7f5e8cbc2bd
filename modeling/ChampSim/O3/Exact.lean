import ChampSim.O3.Moves
import ChampSim.O3.Release

/-!
# ChampSim.O3.Exact

Register dataflow in every state that the core can be in.

* `Flow c s`      — the counts, the ready lists, and instructions that nothing has been done to in
  the front rings.
* `Flow.move`     — every step keeps it.
* `reaches_flow`  — it holds in every state reached.
-/

namespace ChampSim
namespace O3

open Lib ChampSim.Core

variable {μ : Type}

structure Flow (c : Config) (s : Cpu μ) : Prop where
  dep : Dep (fun _ => 0) s.rob
  lists : ∃ l, Lists s.rob s.rte l
  ifetch : ∀ i, Fresh c (s.ifetchBuffer.entry i)
  decode : ∀ i, Fresh c (s.decodeBuffer.entry i)

variable {M : Memory μ} {c : Config} {t : Trace} {O : μ → μ → Prop} {s s' : Cpu μ}

/-! ## The front rings -/

section Front

variable {x y : OooModelInstr} {r : Lib.Ring OooModelInstr}

/-- An instruction without what the front stages write. -/
def early (x : OooModelInstr) : OooModelInstr :=
  { x with
    translated := .idle
    fetched := .idle
    instructionPa := 0
    eventCycle := 0
    branchMispredicted := false }

theorem fresh_early : Fresh c (early x) ↔ Fresh c x :=
  ⟨fun h => ⟨h.scheduled, h.executed, h.regReady, h.regRawChecked, h.links, h.sourceAdded,
      h.destinationAdded, h.sqIndex, h.isProducer, h.memoryInstrsDependOnMe, h.numMemOps,
      h.isMemory⟩,
    fun h => ⟨h.scheduled, h.executed, h.regReady, h.regRawChecked, h.links, h.sourceAdded,
      h.destinationAdded, h.sqIndex, h.isProducer, h.memoryInstrsDependOnMe, h.numMemOps,
      h.isMemory⟩⟩

theorem Fresh.congr (h : Fresh c x) (hxy : early y = early x) : Fresh c y :=
  fresh_early.mp (hxy ▸ fresh_early.mpr h)

theorem fresh_empty : Fresh c .empty where
  scheduled := rfl
  executed := rfl
  regReady := rfl
  regRawChecked := rfl
  links := rfl
  sourceAdded := rfl
  destinationAdded := rfl
  sqIndex := rfl
  isProducer := rfl
  memoryInstrsDependOnMe := rfl
  numMemOps := by simp [countNonzero, OooModelInstr.empty]
  isMemory := rfl

theorem countNonzero_bounded (n : Nat) (f : Nat → Nat) :
    countNonzero n (fun i => (if i < n then f i else 0) != 0) =
      countNonzero n fun i => f i != 0 := by
  unfold countNonzero
  rw [List.filter_congr fun i hi => by rw [if_pos (List.mem_range.mp hi)]]

theorem fresh_ofRecord (id : Nat) (r : InputInstr) :
    Fresh c (ofRecord c.maxInstrDestinations id r) where
  scheduled := rfl
  executed := rfl
  regReady := rfl
  regRawChecked := rfl
  links := rfl
  sourceAdded := rfl
  destinationAdded := rfl
  sqIndex := rfl
  isProducer := rfl
  memoryInstrsDependOnMe := rfl
  numMemOps := by
    show _ + _ = countNonzero c.maxInstrDestinations (fun i =>
        (if i < c.maxInstrDestinations then r.destinationMemory i else 0) != 0) +
      countNonzero numInstrSources (fun i =>
        (if i < numInstrSources then r.sourceMemory i else 0) != 0)
    rw [countNonzero_bounded, countNonzero_bounded]
  isMemory := rfl

/-- An instruction just read has not been touched. -/
theorem readRecord_fresh {front front' : State}
    (h : readRecord c.toConfig t front = some (x, front')) : Fresh c x := by
  obtain ⟨r, -, hr⟩ := Option.map_eq_some_iff.mp h
  have hrecord := fun id r => fresh_ofRecord (c := c) id r
  split at hr
  · cases hr
    have hr := hrecord front.instrUniqueId r
    exact ⟨hr.scheduled, hr.executed, hr.regReady, hr.regRawChecked, hr.links, hr.sourceAdded,
      hr.destinationAdded, hr.sqIndex, hr.isProducer, hr.memoryInstrsDependOnMe, hr.numMemOps,
      hr.isMemory⟩
  · cases hr
    have hr := hrecord front.instrUniqueId
      (if front.instrUniqueId = 0 then r else front.nextInstr)
    exact ⟨hr.scheduled, hr.executed, hr.regReady, hr.regRawChecked, hr.links, hr.sourceAdded,
      hr.destinationAdded, hr.sqIndex, hr.isProducer, hr.memoryInstrsDependOnMe, hr.numMemOps,
      hr.isMemory⟩

theorem fresh_alike {π : OooModelInstr → OooModelInstr} {r' : Lib.Ring OooModelInstr}
    (hπ : ∀ x, early (π x) = early x) (ha : Ring.Alike π r r')
    (h : ∀ i, Fresh c (r.entry i)) (i : Nat) : Fresh c (r'.entry i) := by
  refine (h i).congr ?_
  rw [← hπ, ha.entry i, hπ]

end Front

/-! ## The steps -/

/-- The empty core, with the head of the ROB anywhere. -/
def emptyAt (head : Nat) (mem : μ) : Cpu μ :=
  { Cpu.init mem with rob := ⟨robSize, head, head, 0, fun _ => .empty⟩ }

theorem flow_emptyAt {head : Nat} (hh : head < robSize) (mem : μ) : Flow c (emptyAt head mem) where
  dep := by
    have hempty : ∀ i, pairs (emptyAt head mem).rob i = ∅ := by
      intro i
      ext ⟨p, j⟩
      rw [mem_pairs]
      exact ⟨fun hmem => absurd hmem.2.2 (Finset.notMem_empty i),
        fun hmem => absurd hmem (Finset.notMem_empty _)⟩
    refine .of_proper ⟨window_empty hh, fun p j i hi => ?_, fun p j i hi => ?_, fun i hi => ?_⟩
      (fun p j i hi => ?_) fun _ => proper_empty
    · exact absurd hi (Finset.notMem_empty i)
    · exact absurd hi (Finset.notMem_empty i)
    · rw [hempty]
      rfl
    · exact absurd hi (Finset.notMem_empty i)
  lists := by
    refine ⟨fun _ => [], fun _ => rfl, fun _ => rfl, fun _ => Feed.holds_new (by decide),
      fun _ => List.nodup_nil, fun _ h => absurd h List.not_mem_nil, fun i => ⟨?_, fun hwait => ?_⟩⟩
    · rintro ⟨_, h⟩
      exact absurd h List.not_mem_nil
    · exact absurd rfl hwait.scheduled
  ifetch := fun _ => fresh_empty
  decode := fun _ => fresh_empty

theorem flow_init (mem : μ) : Flow c (.init mem) := flow_emptyAt (by decide) mem

/-- The steps that leave the ROB and the ready lists as they are. -/
theorem Flow.of_rob (h : Flow c s) (ha : Ring.Alike steady s.rob s'.rob) (hrte : s'.rte = s.rte)
    (hi : ∀ i, Fresh c (s'.ifetchBuffer.entry i)) (hd : ∀ i, Fresh c (s'.decodeBuffer.entry i)) :
    Flow c s' := by
  have hflow : Ring.Alike flow s.rob s'.rob := ha.comp flow
  refine ⟨h.dep.alike (h.dep.linked.window.alike ha) hflow, ?_, hi, hd⟩
  obtain ⟨l, hl⟩ := h.lists
  exact ⟨l, hrte ▸ hl.alike hflow⟩

theorem Flow.quiet (h : Flow c s) (hq : Quiet steady s s') : Flow c s' :=
  h.of_rob hq.rob (congrArg Rest.rte hq.rest)
    (fresh_alike (π := unfetched) (fun _ => rfl) hq.ifetch h.ifetch)
    (fresh_alike (π := undated) (fun _ => rfl) hq.decode h.decode)

theorem Flow.live_candidate {i : Nat} (h : Flow c s) (hi : Candidate s i) : s.rob.Live i :=
  h.dep.linked.window.live_of (·.scheduled) (fun _ => rfl) (by rw [hi.scheduled]; decide)

theorem Flow.completes {p : Nat} (h : Flow c s) (hc : completeExecution p s = some s') :
    s' = s ∨ Done p s s' := by
  obtain ⟨l, hl⟩ := h.lists
  obtain ⟨s₁, -, hrun, -, -, hdone⟩ := completeExecution_flow h.dep hl p
  obtain rfl : s₁ = s' := Option.some.inj (hrun.symm.trans hc)
  exact hdone

theorem Flow.schedules {i : Nat} (h : Flow c s) (hf : (s.rob.entry i).fetched = .completed)
    (hidle : (s.rob.entry i).scheduled = .idle) (hs : doScheduling c i s = some s') :
    Scheduled s s' := by
  obtain ⟨l, hl⟩ := h.lists
  have hi : s.rob.Live i :=
    h.dep.linked.window.live_of (·.fetched) (fun _ => rfl) (by rw [hf]; decide)
  obtain ⟨s₁, -, hrun, -, -, hsched⟩ := doScheduling_flow (c := c) h.dep hl hi hidle
  obtain rfl : s₁ = s' := Option.some.inj (hrun.symm.trans hs)
  exact hsched

theorem Flow.front_waits {b : Half} (h : Flow c s) (hb : (s.rte b).front < robSize) :
    Waiting s.rob (s.rte b).front := by
  obtain ⟨l, hl⟩ := h.lists
  exact (execute_flow (c := c) h.dep hl hb).1

theorem links_memoryScheduled (x : OooModelInstr) : links (markMemoryScheduled x) = links x := by
  unfold links markMemoryScheduled
  by_cases hx : x.executed = .idle
  · simp [hx]
  · simp [hx]

theorem Flow.move (h : Flow c s) (hm : Move c t s s') : Flow c s' := by
  obtain ⟨l, hl⟩ := h.lists
  have hw := h.dep.linked.window
  cases hm with
  | tick => exact ⟨h.dep, h.lists, h.ifetch, h.decode⟩
  | read env b hroom hstall hrecord hsta =>
    exact ⟨h.dep, h.lists, Ring.forall_push h.ifetch ((readRecord_fresh hrecord).congr rfl), h.decode⟩
  | resume env =>
    unfold resumeFetch
    split
    · exact ⟨h.dep, h.lists, h.ifetch, h.decode⟩
    · exact h
  | toDecode hip hroom =>
    exact ⟨h.dep, h.lists, Ring.forall_pop h.ifetch fresh_empty, Ring.forall_push h.decode ((h.ifetch _).congr rfl)⟩
  | toRob hip hroom =>
    have hx : Fresh c (setEventCycle s.cycle (s.decodeBuffer.entry s.decodeBuffer.head)) :=
      (h.decode _).congr rfl
    exact ⟨h.dep.push hroom hx, ⟨l, hl.enter hw hroom hx⟩, h.ifetch, Ring.forall_pop h.decode fresh_empty⟩
  | complete hc =>
    rename_i p
    obtain ⟨s₁, l', hrun, hdep, hlists, hdone⟩ := completeExecution_flow h.dep hl p
    obtain rfl : s₁ = s' := Option.some.inj (hrun.symm.trans hc)
    rcases hdone with rfl | hdone
    · exact h
    · rw [hdone.rest]
      exact ⟨hdep, ⟨l', hlists⟩, h.ifetch, h.decode⟩
  | schedule hf hidle hs =>
    rename_i i
    have hi : s.rob.Live i := hw.live_of (·.fetched) (fun _ => rfl) (by rw [hf]; decide)
    obtain ⟨s₁, l', hrun, hdep, hlists, hsched⟩ := doScheduling_flow (c := c) h.dep hl hi hidle
    obtain rfl : s₁ = s' := Option.some.inj (hrun.symm.trans hs)
    rw [hsched.rest]
    exact ⟨hdep, ⟨l', hlists⟩, h.ifetch, h.decode⟩
  | execute hi he =>
    obtain ⟨-, l', hdep, hlists⟩ := execute_flow (c := c) h.dep hl hi
    exact ⟨hdep, ⟨l', hlists⟩, h.ifetch, h.decode⟩
  | addStore hi hj hm ha hbefore hroom hsta hs =>
    rename_i i j
    obtain ⟨-, rfl⟩ := addStoreQueue_eq hs
    have hlive := h.live_candidate hi
    have hproper := h.dep.proper i
    exact ⟨h.dep.modify hlive rfl id ⟨hproper.fresh, hproper.ready, hproper.issued⟩,
      ⟨l, hl.alike (alike_modify (π := flow) rfl)⟩, h.ifetch, h.decode⟩
  | memoryScheduled hi hall =>
    rename_i i
    rw [memoryScheduled_eq]
    have hlive := h.live_candidate hi
    have hproper := h.dep.proper i
    refine ⟨h.dep.modify (f := markMemoryScheduled) hlive (links_memoryScheduled _)
      (fun _ hx => by cases hx) ⟨fun hx => (by cases hx), fun _ => ?_, fun _ => hi.ready⟩,
      ⟨l, hl.congr fun k => ?_⟩, h.ifetch, h.decode⟩
    · exact hproper.ready (by rw [hi.scheduled]; decide)
    · by_cases hk : k = i
      · subst hk
        refine ⟨fun hwait => ?_, fun hwait => ?_⟩
        · have hmem := hwait.memory
          rw [modify_self] at hmem
          exact absurd (hi.memory.symm.trans hmem) (by decide)
        · exact absurd (hi.memory.symm.trans hwait.memory) (by decide)
      · exact waiting_modify hk _
  | retire hip hdone =>
    exact ⟨h.dep.pop hip hdone, ⟨l, hl.leave hw hip hdone⟩, h.ifetch, h.decode⟩

theorem reaches_flow (h : Reaches M c t O s) : Flow c s :=
  h.invariant flow_init fun _ _ hI hop => hop.move.elim hI.quiet hI.move

end O3
end ChampSim
