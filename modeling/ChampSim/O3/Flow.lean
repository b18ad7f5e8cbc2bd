import ChampSim.O3.Links

/-!
# ChampSim.O3.Flow

Scheduling and release keep the dependence counts, and the ready lists hold what may be issued.

* `Dep owed r`     — `Linked`, and `reg_ready` says that nothing is awaited.
* `Waiting r i`    — a non-memory instruction that is ready and not issued.
* `Lists r rte l`  — `RTE0` and `RTE1` hold the waiting instructions, each once.
* `doScheduling_flow`, `releaseAll_flow`, `completeExecution_flow` — the three operations; none of
  them finds the slot that it writes in a ready list taken.
-/

namespace ChampSim
namespace O3

open Lib ChampSim.Core

structure Dep (owed : Nat → Nat) (r : Lib.Ring OooModelInstr) : Prop where
  linked : Linked r owed
  scheduled : ∀ p j i, i ∈ (r.entry p).registersIndexDependOnMe j →
    (r.entry i).scheduled ≠ .idle
  fresh : ∀ i, (r.entry i).scheduled = .idle →
    (r.entry i).regReady = false ∧ (r.entry i).executed = .idle ∧
      (r.entry i).regRawChecked = fun _ => false
  ready : ∀ i, (r.entry i).scheduled ≠ .idle →
    ((r.entry i).regReady = true ↔ (r.entry i).numRegDependent = 0)
  issued : ∀ i, (r.entry i).executed ≠ .idle → (r.entry i).regReady = true

structure Waiting (r : Lib.Ring OooModelInstr) (i : Nat) : Prop where
  live : r.Live i
  memory : (r.entry i).isMemory = false
  scheduled : (r.entry i).scheduled ≠ .idle
  ready : (r.entry i).regReady = true
  executed : (r.entry i).executed = .idle

structure Lists (r : Lib.Ring OooModelInstr) (rte : Half → Feed) (l : Half → List Nat) : Prop where
  size : ∀ b, (rte b).size = robSize
  mark : ∀ b, (rte b).mark = robSize
  holds : ∀ b, (rte b).Holds (l b)
  nodup : ∀ b, (l b).Nodup
  disjoint : ∀ i, i ∈ l .zero → i ∉ l .one
  mem : ∀ i, (∃ b, i ∈ l b) ↔ Waiting r i

/-- The fields that `Dep` and `Waiting` are about. -/
def flow (x : OooModelInstr) :
    (Int × Bool × Finset Nat × (Nat → Finset Nat) × Bool) × Progress × Bool × Progress ×
      (Nat → Bool) × Bool :=
  (links x, x.scheduled, x.regReady, x.executed, x.regRawChecked, x.isMemory)

section Basic

variable {owed : Nat → Nat} {r r' : Lib.Ring OooModelInstr} {rte : Half → Feed}
  {l : Half → List Nat} {i : Nat}

theorem Dep.alike (h : Dep owed r) (hw : Window r') (ha : Ring.Alike flow r r') : Dep owed r' := by
  have hscheduled : ∀ i, (r'.entry i).scheduled = (r.entry i).scheduled := fun i =>
    congrArg (·.2.1) (ha.entry i)
  have hready : ∀ i, (r'.entry i).regReady = (r.entry i).regReady := fun i =>
    congrArg (·.2.2.1) (ha.entry i)
  have hexecuted : ∀ i, (r'.entry i).executed = (r.entry i).executed := fun i =>
    congrArg (·.2.2.2.1) (ha.entry i)
  have hchecked : ∀ i, (r'.entry i).regRawChecked = (r.entry i).regRawChecked := fun i =>
    congrArg (·.2.2.2.2.1) (ha.entry i)
  have hcount : ∀ i, (r'.entry i).numRegDependent = (r.entry i).numRegDependent := fun i =>
    congrArg (·.1.1) (ha.entry i)
  have hindex : ∀ i, (r'.entry i).registersIndexDependOnMe =
      (r.entry i).registersIndexDependOnMe := fun i => congrArg (·.1.2.2.2.1) (ha.entry i)
  refine ⟨h.linked.alike hw (ha.comp (·.1)), ?_, ?_, ?_, ?_⟩
  · intro p j i hi
    rw [hindex] at hi
    rw [hscheduled]
    exact h.scheduled p j i hi
  · intro i hi
    rw [hscheduled] at hi
    rw [hready, hexecuted, hchecked]
    exact h.fresh i hi
  · intro i hi
    rw [hscheduled] at hi
    rw [hready, hcount]
    exact h.ready i hi
  · intro i hi
    rw [hexecuted] at hi
    rw [hready]
    exact h.issued i hi

theorem waiting_congr (hlive : r'.Live i ↔ r.Live i)
    (hmemory : (r'.entry i).isMemory = (r.entry i).isMemory)
    (hscheduled : (r'.entry i).scheduled = (r.entry i).scheduled)
    (hready : (r'.entry i).regReady = (r.entry i).regReady)
    (hexecuted : (r'.entry i).executed = (r.entry i).executed) : Waiting r' i ↔ Waiting r i := by
  constructor
  · rintro ⟨h₁, h₂, h₃, h₄, h₅⟩
    exact ⟨hlive.mp h₁, hmemory ▸ h₂, hscheduled ▸ h₃, hready ▸ h₄, hexecuted ▸ h₅⟩
  · rintro ⟨h₁, h₂, h₃, h₄, h₅⟩
    exact ⟨hlive.mpr h₁, hmemory ▸ h₂, hscheduled ▸ h₃, hready ▸ h₄, hexecuted ▸ h₅⟩

theorem Lists.congr (h : Lists r rte l) (hw : ∀ i, Waiting r' i ↔ Waiting r i) :
    Lists r' rte l :=
  ⟨h.size, h.mark, h.holds, h.nodup, h.disjoint, fun i => (h.mem i).trans (hw i).symm⟩

theorem Lists.alike (h : Lists r rte l) (ha : Ring.Alike flow r r') : Lists r' rte l :=
  h.congr fun i => waiting_congr ha.live (congrArg (·.2.2.2.2.2) (ha.entry i))
    (congrArg (·.2.1) (ha.entry i)) (congrArg (·.2.2.1) (ha.entry i))
    (congrArg (·.2.2.2.1) (ha.entry i))

theorem Lists.lt_size (h : Lists r rte l) (hw : Window r) {b : Half} (hi : i ∈ l b) : i < robSize :=
  hw.lt_size ((h.mem i).mp ⟨b, hi⟩).live

/-- An instruction that starts to wait finds a free slot in either list. -/
theorem Lists.room (h : Lists r rte l) (hw : Window r) (hlive : r.Live i)
    (hnew : ¬ Waiting r i) (b : Half) :
    (l b).length < (rte b).size ∧ (rte b).slot (rte b).tail = robSize := by
  have hroom : (l b).length < (rte b).size := by
    rw [h.size b]
    exact Feed.length_lt_of_nodup (h.nodup b) (fun k hk => h.lt_size hw hk) (hw.lt_size hlive)
      fun hi => hnew ((h.mem i).mp ⟨b, hi⟩)
  exact ⟨hroom, ((h.holds b).free hroom).trans (h.mark b)⟩

/-- The instruction at `i` joins the list `b`. -/
theorem Lists.push (h : Lists r rte l) (hw : Window r) (hlive : r.Live i) (hnew : ¬ Waiting r i)
    (b : Half) (hr' : ∀ k, Waiting r' k ↔ Waiting r k ∨ k = i) :
    Lists r' (Function.update rte b ((rte b).push i)) (Function.update l b (l b ++ [i])) := by
  obtain ⟨hroom, -⟩ := h.room hw hlive hnew b
  have hout : ∀ b', i ∉ l b' := fun b' hi => hnew ((h.mem i).mp ⟨b', hi⟩)
  have hmem : ∀ k b', k ∈ Function.update l b (l b ++ [i]) b' ↔ k ∈ l b' ∨ (b' = b ∧ k = i) := by
    intro k b'
    by_cases hb : b' = b
    · subst hb
      simp
    · simp [hb]
  have hnodup : (l b ++ [i]).Nodup := by
    refine List.nodup_append.mpr ⟨h.nodup b, List.nodup_singleton i, fun x hx y hy => ?_⟩
    rw [List.mem_singleton.mp hy]
    rintro rfl
    exact hout b hx
  refine ⟨?_, ?_, fun b' => ?_, ?_, fun k hk hk' => ?_, fun k => ?_⟩
  · exact (Function.forall_update_iff rte fun _ f => f.size = robSize).mpr
      ⟨h.size b, fun b' _ => h.size b'⟩
  · exact (Function.forall_update_iff rte fun _ f => f.mark = robSize).mpr
      ⟨h.mark b, fun b' _ => h.mark b'⟩
  · by_cases hb : b' = b
    · subst hb
      rw [Function.update_self, Function.update_self]
      exact (h.holds b').push hroom i
    · rw [Function.update_of_ne hb, Function.update_of_ne hb]
      exact h.holds b'
  · exact (Function.forall_update_iff l fun _ k => k.Nodup).mpr ⟨hnodup, fun b' _ => h.nodup b'⟩
  · rcases (hmem k .zero).mp hk with hzero | ⟨hz, rfl⟩
    · rcases (hmem k .one).mp hk' with hone | ⟨-, rfl⟩
      · exact h.disjoint k hzero hone
      · exact hout _ hzero
    · rcases (hmem k .one).mp hk' with hone | ⟨ho, -⟩
      · exact hout _ hone
      · exact absurd (hz.trans ho.symm) (by decide)
  · rw [hr' k, ← h.mem k]
    constructor
    · rintro ⟨b', hk⟩
      rcases (hmem k b').mp hk with hk | ⟨-, rfl⟩
      · exact .inl ⟨b', hk⟩
      · exact .inr rfl
    · rintro (⟨b', hk⟩ | rfl)
      · exact ⟨b', (hmem k b').mpr (.inl hk)⟩
      · exact ⟨b, (hmem k b).mpr (.inr ⟨rfl, rfl⟩)⟩

/-- The front of the list `b` leaves it. -/
theorem Lists.pop (h : Lists r rte l) {b : Half} (hfront : (rte b).front < robSize)
    (hr' : ∀ k, Waiting r' k ↔ Waiting r k ∧ k ≠ (rte b).front) :
    ∃ l', Lists r' (Function.update rte b (rte b).pop) l' := by
  obtain ⟨rest, hl⟩ := (h.holds b).of_front (by rw [h.mark b]; omega)
  have hholds := h.holds b
  rw [hl] at hholds
  have hnodup := h.nodup b
  rw [hl] at hnodup
  have hmem : ∀ k b', k ∈ Function.update l b rest b' ↔ k ∈ l b' ∧ k ≠ (rte b).front := by
    intro k b'
    by_cases hb : b' = b
    · subst hb
      rw [Function.update_self, hl, List.mem_cons]
      constructor
      · intro hk
        refine ⟨.inr hk, ?_⟩
        rintro rfl
        exact (List.nodup_cons.mp hnodup).1 hk
      · rintro ⟨hk | hk, hne⟩
        · exact absurd hk hne
        · exact hk
    · rw [Function.update_of_ne hb]
      refine ⟨fun hk => ⟨hk, ?_⟩, fun hk => hk.1⟩
      rintro rfl
      have hfront' : (rte b).front ∈ l b := by
        rw [hl]
        exact List.mem_cons_self
      cases b <;> cases b'
      · exact hb rfl
      · exact h.disjoint _ hfront' hk
      · exact h.disjoint _ hk hfront'
      · exact hb rfl
  refine ⟨Function.update l b rest, ?_, ?_, fun b' => ?_, ?_, fun k hk hk' => ?_, fun k => ?_⟩
  · exact (Function.forall_update_iff rte fun _ f => f.size = robSize).mpr
      ⟨h.size b, fun b' _ => h.size b'⟩
  · exact (Function.forall_update_iff rte fun _ f => f.mark = robSize).mpr
      ⟨h.mark b, fun b' _ => h.mark b'⟩
  · by_cases hb : b' = b
    · subst hb
      rw [Function.update_self, Function.update_self]
      exact hholds.pop
    · rw [Function.update_of_ne hb, Function.update_of_ne hb]
      exact h.holds b'
  · exact (Function.forall_update_iff l fun _ k => k.Nodup).mpr
      ⟨(List.nodup_cons.mp hnodup).2, fun b' _ => h.nodup b'⟩
  · exact h.disjoint k ((hmem k .zero).mp hk).1 ((hmem k .one).mp hk').1
  · rw [hr' k, ← h.mem k]
    constructor
    · rintro ⟨b', hk⟩
      exact ⟨⟨b', ((hmem k b').mp hk).1⟩, ((hmem k b').mp hk).2⟩
    · rintro ⟨⟨b', hk⟩, hne⟩
      exact ⟨b', (hmem k b').mpr ⟨hk, hne⟩⟩

end Basic

/-! ## One entry rewritten -/

section Modify

variable {owed : Nat → Nat} {r r' : Lib.Ring OooModelInstr} {i : Nat}
  {f : OooModelInstr → OooModelInstr}

/-- What the new entry must satisfy by itself. -/
structure Proper (x : OooModelInstr) : Prop where
  fresh : x.scheduled = .idle →
    x.regReady = false ∧ x.executed = .idle ∧ x.regRawChecked = fun _ => false
  ready : x.scheduled ≠ .idle → (x.regReady = true ↔ x.numRegDependent = 0)
  issued : x.executed ≠ .idle → x.regReady = true

theorem Dep.proper (h : Dep owed r) (i : Nat) : Proper (r.entry i) :=
  ⟨h.fresh i, h.ready i, h.issued i⟩

theorem Dep.of_proper (hlinked : Linked r owed)
    (hscheduled : ∀ p j i, i ∈ (r.entry p).registersIndexDependOnMe j →
      (r.entry i).scheduled ≠ .idle) (h : ∀ i, Proper (r.entry i)) : Dep owed r :=
  ⟨hlinked, hscheduled, fun i => (h i).fresh, fun i => (h i).ready, fun i => (h i).issued⟩

theorem alike_modify {β : Type} {π : OooModelInstr → β} (h : π (f (r.entry i)) = π (r.entry i)) :
    Ring.Alike π r (modify r i f) := .of_update h

theorem Dep.modify (h : Dep owed r) (hi : r.Live i)
    (hlinks : links (f (r.entry i)) = links (r.entry i))
    (hscheduled : (r.entry i).scheduled ≠ .idle → (f (r.entry i)).scheduled ≠ .idle)
    (hproper : Proper (f (r.entry i))) : Dep owed (Core.modify r i f) := by
  have hindex : ∀ p, ((Core.modify r i f).entry p).registersIndexDependOnMe =
      (r.entry p).registersIndexDependOnMe := fun p =>
    congrArg (·.2.2.2.1) ((alike_modify hlinks).entry p)
  refine .of_proper (h.linked.alike (h.linked.window.modify hi f) (alike_modify hlinks))
    (fun p j k hk => ?_) fun k => ?_
  · rw [hindex] at hk
    have hold := h.scheduled p j k hk
    by_cases hki : k = i
    · subst hki
      rw [modify_self]
      exact hscheduled hold
    · rw [modify_ne hki]
      exact hold
  · by_cases hki : k = i
    · subst hki
      rw [modify_self]
      exact hproper
    · rw [modify_ne hki]
      exact h.proper k

theorem waiting_modify {k : Nat} (hk : k ≠ i) (r : Lib.Ring OooModelInstr) :
    Waiting (Core.modify r i f) k ↔ Waiting r k := by
  have hentry := modify_ne (r := r) hk f
  exact waiting_congr Iff.rfl (by rw [hentry]) (by rw [hentry]) (by rw [hentry]) (by rw [hentry])

/-- An issued instruction leaves the waiting ones. -/
theorem not_waiting_modify (hexecuted : (f (r.entry i)).executed ≠ .idle) :
    ¬ Waiting (Core.modify r i f) i := fun h => by
  have hidle := h.executed
  rw [modify_self] at hidle
  exact hexecuted hidle

end Modify

/-! ## Entering and leaving the ROB -/

section Ends

variable {r : Lib.Ring OooModelInstr} {rte : Half → Feed} {l : Half → List Nat}

/-- What holds of an instruction until it is scheduled. -/
structure Fresh (c : Config) (x : OooModelInstr) : Prop where
  scheduled : x.scheduled = .idle
  executed : x.executed = .idle
  regReady : x.regReady = false
  regRawChecked : x.regRawChecked = fun _ => false
  links : links x = links .empty
  sourceAdded : x.sourceAdded = fun _ => false
  destinationAdded : x.destinationAdded = fun _ => false
  sqIndex : x.sqIndex = fun _ => uint32Max
  isProducer : x.isProducer = false
  memoryInstrsDependOnMe : x.memoryInstrsDependOnMe = ∅
  numMemOps : x.numMemOps =
    countNonzero c.maxInstrDestinations (fun i => x.destinationMemory i != 0) +
      countNonzero numInstrSources (fun i => x.sourceMemory i != 0)
  isMemory : x.isMemory = decide (x.numMemOps > 0)

theorem Fresh.proper {c : Config} {x : OooModelInstr} (h : Fresh c x) : Proper x where
  fresh := fun _ => ⟨h.regReady, h.executed, h.regRawChecked⟩
  ready := fun hne => absurd h.scheduled hne
  issued := fun hne => absurd h.executed hne

theorem Fresh.no_consumers {c : Config} {x : OooModelInstr} (h : Fresh c x) (j : Nat) :
    x.registersIndexDependOnMe j = ∅ := by
  have hindex := congrArg (·.2.2.2.1) h.links
  exact congrFun hindex j

theorem proper_empty : Proper .empty where
  fresh := fun _ => ⟨rfl, rfl, rfl⟩
  ready := fun hne => absurd rfl hne
  issued := fun hne => absurd rfl hne

theorem Dep.push {c : Config} {x : OooModelInstr} (h : Dep (fun _ => 0) r)
    (hroom : r.occupancy < r.size) (hx : Fresh c x) : Dep (fun _ => 0) (r.push x) := by
  have htail := h.linked.window.wf.not_live_tail hroom
  have hself : (r.push x).entry r.tail = x := Function.update_self ..
  have hne : ∀ {k}, k ≠ r.tail → (r.push x).entry k = r.entry k := fun hk =>
    Function.update_of_ne hk ..
  have hlive : ∀ k, (r.push x).Live k ↔ r.Live k ∨ k = r.tail := fun k =>
    Ring.live_push x h.linked.window.wf.tail_eq
  -- no set of the new entry has elements, and none has the tail as its element
  have hold : ∀ p j i, i ∈ ((r.push x).entry p).registersIndexDependOnMe j →
      i ∈ (r.entry p).registersIndexDependOnMe j ∧ p ≠ r.tail ∧ i ≠ r.tail := by
    intro p j i hi
    by_cases hp : p = r.tail
    · subst hp
      rw [hself, hx.no_consumers] at hi
      exact absurd hi (Finset.notMem_empty i)
    · rw [hne hp] at hi
      refine ⟨hi, hp, ?_⟩
      rintro rfl
      exact htail (h.linked.older p j _ hi).2.1
  have hpairs : ∀ i, pairs (r.push x) i = pairs r i := by
    intro i
    ext ⟨p, j⟩
    rw [mem_pairs, mem_pairs]
    constructor
    · rintro ⟨hlt, hexec, hi⟩
      obtain ⟨hi, hp, -⟩ := hold p j i hi
      rw [hne hp] at hexec
      exact ⟨hlt, hexec, hi⟩
    · rintro ⟨hlt, hexec, hi⟩
      have hp : p ≠ r.tail := by
        rintro rfl
        exact htail (h.linked.live_producer hi)
      rw [hne hp]
      exact ⟨hlt, hexec, hi⟩
  refine .of_proper ⟨h.linked.window.push hroom x, ?_, ?_, ?_⟩ ?_ ?_
  · intro p j i hi
    obtain ⟨hj, hl, hage⟩ := h.linked.older p j i (hold p j i hi).1
    exact ⟨hj, (hlive i).mpr (.inl hl), hage⟩
  · intro p j i hi
    obtain ⟨hi, hp, -⟩ := hold p j i hi
    rw [hne hp]
    exact h.linked.listed p j i hi
  · intro i hi
    rw [hpairs]
    by_cases hit : i = r.tail
    · subst hit
      have hempty : pairs r r.tail = ∅ := by
        ext ⟨p, j⟩
        rw [mem_pairs]
        refine ⟨fun hmem => absurd (h.linked.older p j _ hmem.2.2).2.1 htail, fun hmem => ?_⟩
        exact absurd hmem (Finset.notMem_empty _)
      rw [hself, hempty]
      exact congrArg (·.1) hx.links
    · rw [hne hit]
      exact h.linked.count i (((hlive i).mp hi).resolve_right hit)
  · intro p j i hi
    obtain ⟨hi, -, hit⟩ := hold p j i hi
    rw [hne hit]
    exact h.scheduled p j i hi
  · intro i
    by_cases hit : i = r.tail
    · subst hit
      rw [hself]
      exact hx.proper
    · rw [hne hit]
      exact h.proper i

theorem Lists.enter {c : Config} {x : OooModelInstr} (h : Lists r rte l) (hw : Window r)
    (hroom : r.occupancy < r.size) (hx : Fresh c x) : Lists (r.push x) rte l := by
  refine h.congr fun i => ?_
  have hlive : (r.push x).Live i ↔ r.Live i ∨ i = r.tail := Ring.live_push x hw.wf.tail_eq
  by_cases hit : i = r.tail
  · subst hit
    refine ⟨fun hwait => ?_, fun hwait => absurd hwait.live (hw.wf.not_live_tail hroom)⟩
    have hself : (r.push x).entry r.tail = x := Function.update_self ..
    have hidle := hwait.scheduled
    rw [hself] at hidle
    exact absurd hx.scheduled hidle
  · have hentry : (r.push x).entry i = r.entry i := Function.update_of_ne hit ..
    exact waiting_congr (hlive.trans (or_iff_left hit)) (by rw [hentry]) (by rw [hentry])
      (by rw [hentry]) (by rw [hentry])

theorem Dep.pop (h : Dep (fun _ => 0) r) (hip : (r.entry r.head).ip ≠ 0)
    (hdone : (r.entry r.head).executed = .completed) : Dep (fun _ => 0) (r.pop .empty) := by
  have hw := h.linked.window
  have hhead := hw.live_head hip
  have hpos := hw.occupancy_pos hhead
  have hself : (r.pop .empty).entry r.head = .empty := Function.update_self ..
  have hne : ∀ {k}, k ≠ r.head → (r.pop .empty).entry k = r.entry k := fun hk =>
    Function.update_of_ne hk ..
  have hlive : ∀ k, (r.pop .empty).Live k ↔ r.Live k ∧ k ≠ r.head := fun k =>
    Ring.live_pop _ hw.head_lt hw.wf.occ_le hpos
  -- the head is the oldest instruction, so nobody has recorded it as a consumer
  have hyoung : ∀ p j i, i ∈ (r.entry p).registersIndexDependOnMe j → i ≠ r.head := by
    rintro p j _ hi rfl
    have hage := (h.linked.older p j _ hi).2.2
    have hzero : r.age r.head = 0 := by
      unfold Ring.age
      rw [if_pos le_rfl, Nat.sub_self]
    omega
  have hold : ∀ p j i, i ∈ ((r.pop .empty).entry p).registersIndexDependOnMe j →
      i ∈ (r.entry p).registersIndexDependOnMe j ∧ p ≠ r.head := by
    intro p j i hi
    by_cases hp : p = r.head
    · subst hp
      rw [hself] at hi
      exact absurd hi (Finset.notMem_empty i)
    · rw [hne hp] at hi
      exact ⟨hi, hp⟩
  have hpairs : ∀ i, pairs (r.pop .empty) i = pairs r i := by
    intro i
    ext ⟨p, j⟩
    rw [mem_pairs, mem_pairs]
    constructor
    · rintro ⟨hlt, hexec, hi⟩
      obtain ⟨hi, hp⟩ := hold p j i hi
      rw [hne hp] at hexec
      exact ⟨hlt, hexec, hi⟩
    · rintro ⟨hlt, hexec, hi⟩
      have hp : p ≠ r.head := by
        rintro rfl
        exact hexec hdone
      rw [hne hp]
      exact ⟨hlt, hexec, hi⟩
  refine .of_proper ⟨hw.pop hpos, ?_, ?_, ?_⟩ ?_ ?_
  · intro p j i hi
    obtain ⟨hi, hp⟩ := hold p j i hi
    obtain ⟨hj, hl, hage⟩ := h.linked.older p j i hi
    have hih := hyoung p j i hi
    have hpsize := (h.linked.live_producer hi).lt_size hw.head_lt hw.wf.occ_le
    have hisize := hl.lt_size hw.head_lt hw.wf.occ_le
    have hpage := Ring.age_pop (r := r) OooModelInstr.empty hw.head_lt hpsize hp
    have hiage := Ring.age_pop (r := r) OooModelInstr.empty hw.head_lt hisize hih
    exact ⟨hj, (hlive i).mpr ⟨hl, hih⟩, by omega⟩
  · intro p j i hi
    obtain ⟨hi, hp⟩ := hold p j i hi
    rw [hne hp]
    exact h.linked.listed p j i hi
  · intro i hi
    obtain ⟨hl, hih⟩ := (hlive i).mp hi
    rw [hpairs, hne hih]
    exact h.linked.count i hl
  · intro p j i hi
    obtain ⟨hi, -⟩ := hold p j i hi
    rw [hne (hyoung p j i hi)]
    exact h.scheduled p j i hi
  · intro i
    by_cases hih : i = r.head
    · subst hih
      rw [hself]
      exact proper_empty
    · rw [hne hih]
      exact h.proper i

theorem Lists.leave (h : Lists r rte l) (hw : Window r) (hip : (r.entry r.head).ip ≠ 0)
    (hdone : (r.entry r.head).executed = .completed) : Lists (r.pop .empty) rte l := by
  refine h.congr fun i => ?_
  have hlive : (r.pop .empty).Live i ↔ r.Live i ∧ i ≠ r.head :=
    Ring.live_pop _ hw.head_lt hw.wf.occ_le (hw.occupancy_pos (hw.live_head hip))
  by_cases hih : i = r.head
  · subst hih
    refine ⟨fun hwait => absurd rfl (hlive.mp hwait.live).2, fun hwait => ?_⟩
    have hidle := hwait.executed
    rw [hdone] at hidle
    cases hidle
  · have hentry : (r.pop .empty).entry i = r.entry i := Function.update_of_ne hih ..
    exact waiting_congr (hlive.trans (and_iff_left hih)) (by rw [hentry]) (by rw [hentry])
      (by rw [hentry]) (by rw [hentry])

end Ends

end O3
end ChampSim
