import ChampSim.O3.Dataflow
import ChampSim.Lib.RingWalk

/-!
# ChampSim.O3.Rename

Scheduling does not depend on the slots that the instructions stand in.

* `renameSlots`, `renameRing`, `Cpu.rename` — a state with its ROB slots renamed.
* `Turns σ r`           — `σ` turns the ring: ages stay.
* `doScheduling_rename` — `do_scheduling` on the renamed state is the renamed result.
* `turns_origin`        — there is a turn after which the head is slot 0.
-/

namespace ChampSim
namespace O3

open Lib ChampSim.Core

variable {μ : Type} {c : Config} {σ : Equiv.Perm Nat} {r : Lib.Ring OooModelInstr} {s : Cpu μ}

def renameSlots (σ : Equiv.Perm Nat) (x : OooModelInstr) : OooModelInstr :=
  { x with
    registersInstrsDependOnMe := x.registersInstrsDependOnMe.image σ
    registersIndexDependOnMe := fun j => (x.registersIndexDependOnMe j).image σ
    memoryInstrsDependOnMe := x.memoryInstrsDependOnMe.image σ }

def renameRing (σ : Equiv.Perm Nat) (r : Lib.Ring OooModelInstr) : Lib.Ring OooModelInstr :=
  { r with
    head := σ r.head
    tail := σ r.tail
    entry := fun k => renameSlots σ (r.entry (σ.symm k)) }

def renameFeed (σ : Equiv.Perm Nat) (f : Feed) : Feed := { f with slot := fun k => σ (f.slot k) }

def renameLsq (σ : Equiv.Perm Nat) (r : Lib.Ring LsqEntry) : Lib.Ring LsqEntry :=
  { r with entry := fun k => { r.entry k with robIndex := σ (r.entry k).robIndex } }

def Cpu.rename (σ : Equiv.Perm Nat) (s : Cpu μ) : Cpu μ :=
  { s with
    rob := renameRing σ s.rob
    lq := renameLsq σ s.lq
    sq := renameLsq σ s.sq
    rte := fun b => renameFeed σ (s.rte b)
    nextSchedule := σ s.nextSchedule }

@[simp] theorem renameRing_entry (σ : Equiv.Perm Nat) (r : Lib.Ring OooModelInstr) (i : Nat) :
    (renameRing σ r).entry (σ i) = renameSlots σ (r.entry i) := by
  simp [renameRing]

theorem renameRing_modify {f g : OooModelInstr → OooModelInstr} (i : Nat)
    (hfg : ∀ x, g (renameSlots σ x) = renameSlots σ (f x)) :
    modify (renameRing σ r) (σ i) g = renameRing σ (modify r i f) := by
  have hentry : (modify (renameRing σ r) (σ i) g).entry = (renameRing σ (modify r i f)).entry := by
    funext k
    obtain ⟨j, rfl⟩ := σ.surjective k
    rw [renameRing_entry]
    by_cases hj : j = i
    · subst hj
      rw [modify_self, modify_self, renameRing_entry, hfg]
    · rw [modify_ne (σ.injective.ne hj), modify_ne hj, renameRing_entry]
  exact congrArg (fun e => { renameRing σ r with entry := e }) hentry

/-! ## The dependences -/

theorem recordConsumer_rename (cur j : Nat) (x : OooModelInstr) :
    recordConsumer (σ cur) j (renameSlots σ x) = renameSlots σ (recordConsumer cur j x) := by
  have hupdate : Function.update (fun j => (x.registersIndexDependOnMe j).image σ) j
      (insert (σ cur) ((x.registersIndexDependOnMe j).image σ)) =
      fun k => (Function.update x.registersIndexDependOnMe j
        (insert cur (x.registersIndexDependOnMe j)) k).image σ := by
    funext k
    by_cases hk : k = j
    · subst hk
      simp [Finset.image_insert]
    · simp [hk]
  simp only [recordConsumer, renameSlots, Finset.image_insert, hupdate]

theorem regRawDependency_rename (p cur j : Nat) (r : Lib.Ring OooModelInstr) :
    regRawDependency c (σ p) (σ cur) j (renameRing σ r) =
      renameRing σ (regRawDependency c p cur j r) := by
  have hwrites : writesSource c ((renameRing σ r).entry (σ p)) ((renameRing σ r).entry (σ cur)) j =
      writesSource c (r.entry p) (r.entry cur) j := by
    rw [renameRing_entry, renameRing_entry]
    rfl
  unfold regRawDependency
  rw [hwrites]
  split
  · rw [renameRing_modify p (recordConsumer_rename cur j), renameRing_entry]
    exact renameRing_modify cur fun _ => rfl
  · rfl

theorem regDependencyOn_rename (cur p : Nat) (r : Lib.Ring OooModelInstr) :
    regDependencyOn c (σ cur) (renameRing σ r) (σ p) =
      renameRing σ (regDependencyOn c cur r p) := by
  have hexec : ((renameRing σ r).entry (σ p)).executed = (r.entry p).executed := by
    rw [renameRing_entry]
    rfl
  unfold regDependencyOn
  rw [hexec]
  split
  · refine List.foldl_hom (renameRing σ) fun r j => ?_
    rw [renameRing_entry]
    show (if (r.entry cur).sourceRegisters j ≠ 0 ∧ (r.entry cur).regRawChecked j = false then _
      else _) = _
    split
    · exact regRawDependency_rename p cur j r
    · rfl
  · rfl

/-- `σ` turns the ring. -/
structure Turns (σ : Equiv.Perm Nat) (r : Lib.Ring OooModelInstr) : Prop where
  head_lt : r.head < r.size
  slot : ∀ i, σ i < r.size ↔ i < r.size
  idx : ∀ k < r.size, σ (Ring.idx r.size r.head k) = Ring.idx r.size (σ r.head) k

theorem Turns.alike {β : Type} {π : OooModelInstr → β} {r r' : Lib.Ring OooModelInstr}
    (h : Turns σ r) (ha : Ring.Alike π r r') : Turns σ r' := by
  refine ⟨?_, ?_, ?_⟩
  · rw [ha.head, ha.size]
    exact h.head_lt
  · rw [ha.size]
    exact h.slot
  · rw [ha.head, ha.size]
    exact h.idx

theorem Turns.priors (h : Turns σ r) (hocc : r.occupancy ≤ r.size) {i : Nat} (hi : r.Live i) :
    priors (renameRing σ r) (σ i) = (priors r i).map σ := by
  obtain ⟨k, hk, rfl⟩ := hi
  have hhead : (renameRing σ r).head < (renameRing σ r).size := (h.slot r.head).mpr h.head_lt
  rw [h.idx k (by omega), priors_idx h.head_lt hocc hk, List.map_reverse, List.map_map]
  refine (priors_idx hhead hocc hk).trans (congrArg List.reverse (List.map_congr_left fun j hj => ?_))
  have hj := List.mem_range.mp hj
  exact (h.idx j (by omega)).symm

theorem regDependency_rename (h : Turns σ r) (hocc : r.occupancy ≤ r.size) {i : Nat}
    (hi : r.Live i) :
    regDependency c (σ i) (renameRing σ r) = renameRing σ (regDependency c i r) := by
  rw [regDependency, h.priors hocc hi, List.foldl_map]
  exact List.foldl_hom (renameRing σ) fun r p => regDependencyOn_rename i p r

/-! ## One instruction -/

/-- The slot after `i` is turned into the slot after `σ i`. -/
theorem Turns.nextSlot (h : Turns σ s.rob) {i : Nat} (hi : i < s.rob.size) :
    nextSlot (s.rename σ) (σ i) = σ (nextSlot s i) := by
  have hnext : ∀ {s : Cpu μ} {i : Nat}, i < s.rob.size →
      O3.nextSlot s i = Ring.next s.rob.size i := by
    intro s i hi
    unfold O3.nextSlot Ring.next
    split <;> split <;> omega
  obtain ⟨k, hk, rfl⟩ := Ring.exists_idx h.head_lt hi
  have hhead := (h.slot s.rob.head).mpr h.head_lt
  rw [hnext hi, hnext (s := s.rename σ) ((h.slot _).mpr hi), Ring.next_idx h.head_lt hk, h.idx k hk]
  refine (@Ring.next_idx s.rob.size (σ s.rob.head) k hhead hk).trans ?_
  rcases Nat.lt_or_eq_of_le (Nat.succ_le_of_lt hk) with hlt | heq
  · exact (h.idx (k + 1) hlt).symm
  · have hback : ∀ head < s.rob.size, Ring.idx s.rob.size head (k + 1) = head := by
      intro head hhead
      unfold Ring.idx
      split <;> omega
    rw [hback _ h.head_lt, hback _ hhead]

theorem renameFeed_push (f : Feed) (i : Nat) :
    (renameFeed σ f).push (σ i) = renameFeed σ (f.push i) := by
  have hslot : Function.update (fun k => σ (f.slot k)) f.tail (σ i) =
      fun k => σ (Function.update f.slot f.tail i k) := by
    funext k
    by_cases hk : k = f.tail
    · subst hk
      simp
    · simp [hk]
  simp only [renameFeed, Feed.push, hslot]

theorem pushRte_rename (b : Half) (i : Nat) (s : Cpu μ) :
    (s.rename σ).pushRte b (σ i) = (s.pushRte b i).rename σ := by
  have hrte : Function.update (fun b => renameFeed σ (s.rte b)) b
      ((renameFeed σ (s.rte b)).push (σ i)) =
      fun b' => renameFeed σ (Function.update s.rte b ((s.rte b).push i) b') := by
    funext b'
    by_cases hb : b' = b
    · subst hb
      simp [renameFeed_push]
    · simp [hb]
  simp only [Cpu.rename, Cpu.pushRte, hrte]

theorem addReady_rename (h : Turns σ s.rob) (hsize : s.rob.size = robSize) (b : Half) (i : Nat) :
    addReady b (σ i) (s.rename σ) = (addReady b i s).map (Cpu.rename σ) := by
  have hfree : ((s.rename σ).rte b).slot ((s.rename σ).rte b).tail < robSize ↔
      (s.rte b).slot (s.rte b).tail < robSize := by
    rw [← hsize]
    exact h.slot _
  unfold addReady
  by_cases htaken : (s.rte b).slot (s.rte b).tail < robSize
  · rw [if_pos htaken, if_pos (hfree.mpr htaken)]
    rfl
  · rw [if_neg htaken, if_neg (hfree.not.mpr htaken), pushRte_rename]
    rfl

theorem scheduleIn_addReady {i : Nat} (hmemory : (r.entry i).isMemory = false)
    (hready : (r.entry i).regReady = true) :
    scheduleIn c i r s = addReady .one i { s with
      rob := modify r i (markScheduled s.cycle c.schedulingLatency)
      nextSchedule := nextSlot s i } := by
  simp only [scheduleIn, hmemory, hready]
  rfl

theorem scheduleIn_rename {i : Nat} (h : Turns σ s.rob) (hi : i < s.rob.size)
    {r : Lib.Ring OooModelInstr} (hr : Turns σ r) (hsize : r.size = robSize) :
    scheduleIn c (σ i) (renameRing σ r) (s.rename σ) =
      (scheduleIn c i r s).map (Cpu.rename σ) := by
  have hentry := renameRing_entry σ r i
  have hnext := h.nextSlot hi
  cases hmemory : (r.entry i).isMemory with
  | true =>
    rw [scheduleIn_memory hmemory, scheduleIn_memory (by rw [hentry]; exact hmemory), hnext,
      renameRing_modify (f := markInflight) i fun _ => rfl]
    rfl
  | false =>
    have hmark : modify (renameRing σ r) (σ i)
        (markScheduled (s.rename σ).cycle c.schedulingLatency) =
        renameRing σ (modify r i (markScheduled s.cycle c.schedulingLatency)) :=
      renameRing_modify i fun _ => rfl
    cases hready : (r.entry i).regReady with
    | false =>
      rw [scheduleIn_waits hmemory hready,
        scheduleIn_waits (by rw [hentry]; exact hmemory) (by rw [hentry]; exact hready), hnext,
        hmark]
      rfl
    | true =>
      rw [scheduleIn_addReady hmemory hready,
        scheduleIn_addReady (by rw [hentry]; exact hmemory) (by rw [hentry]; exact hready), hnext,
        hmark]
      exact addReady_rename (s := { s with
        rob := modify r i (markScheduled s.cycle c.schedulingLatency)
        nextSchedule := nextSlot s i }) ⟨hr.head_lt, hr.slot, hr.idx⟩ hsize .one i

theorem foldl_alike {α β : Type} {π : OooModelInstr → β}
    {f : Lib.Ring OooModelInstr → α → Lib.Ring OooModelInstr}
    (hf : ∀ r a, Ring.Alike π r (f r a)) (as : List α) :
    ∀ r, Ring.Alike π r (as.foldl f r) := by
  induction as with
  | nil => exact fun r => .refl ..
  | cons a as ih => exact fun r => (hf r a).trans (ih _)

theorem regDependency_alike (c : Config) (i : Nat) (r : Lib.Ring OooModelInstr) :
    Ring.Alike unlinked r (regDependency c i r) := by
  refine foldl_alike (fun r p => ?_) _ r
  unfold regDependencyOn
  split
  · refine foldl_alike (fun r j => ?_) _ r
    split
    · unfold regRawDependency
      split
      · exact (alike_modify rfl).trans (alike_modify rfl)
      · exact .refl ..
    · exact .refl ..
  · exact .refl ..

/-- An entry without what `do_scheduling` writes after the dependences. -/
def unstamped (x : OooModelInstr) : OooModelInstr :=
  { x with scheduled := .idle, eventCycle := 0 }

theorem doScheduling_does {s' : Cpu μ} {i : Nat} (h : doScheduling c i s = some s') :
    ∃ (f : OooModelInstr → OooModelInstr) (next : Nat) (rte : Half → Feed),
      s' = { s with
        rob := modify (regDependency c i (modify s.rob i markReady)) i f
        nextSchedule := next
        rte := rte } ∧
      (∀ x, unstamped (f x) = unstamped x) ∧ ∀ x, (f x).scheduled ≠ .idle := by
  rw [doScheduling_eq] at h
  generalize regDependency c i (modify s.rob i markReady) = r at h
  cases hmemory : (r.entry i).isMemory with
  | true =>
    rw [scheduleIn_memory hmemory] at h
    exact ⟨_, _, _, (Option.some.inj h).symm, fun _ => rfl, fun x hx => by cases hx⟩
  | false =>
    cases hready : (r.entry i).regReady with
    | false =>
      rw [scheduleIn_waits hmemory hready] at h
      exact ⟨_, _, _, (Option.some.inj h).symm, fun _ => rfl, fun x hx => by cases hx⟩
    | true =>
      rw [scheduleIn_addReady hmemory hready] at h
      unfold addReady at h
      split at h
      · cases h
      · exact ⟨_, _, _, (Option.some.inj h).symm, fun _ => rfl, fun x hx => by cases hx⟩

theorem doScheduling_rename (h : Turns σ s.rob) (hsize : s.rob.size = robSize)
    (hocc : s.rob.occupancy ≤ s.rob.size) {i : Nat} (hi : s.rob.Live i) :
    doScheduling c (σ i) (s.rename σ) = (doScheduling c i s).map (Cpu.rename σ) := by
  have hmark : modify (renameRing σ s.rob) (σ i) markReady =
      renameRing σ (modify s.rob i markReady) := renameRing_modify i fun _ => rfl
  have hready : Turns σ (modify s.rob i markReady) := ⟨h.head_lt, h.slot, h.idx⟩
  have halike := regDependency_alike c i (modify s.rob i markReady)
  rw [doScheduling_eq, doScheduling_eq]
  show scheduleIn c (σ i) (regDependency c (σ i) (modify (renameRing σ s.rob) _ markReady)) _ = _
  rw [hmark, regDependency_rename hready hocc hi]
  exact scheduleIn_rename h (hi.lt_size h.head_lt hocc) (hready.alike halike)
    (halike.size.trans hsize)

theorem turns_origin (hh : r.head < r.size) :
    Turns (Ring.toOrigin hh) r ∧ Ring.toOrigin hh r.head = 0 := by
  have hhead : Ring.toOrigin hh r.head = 0 := by
    have hidx := Ring.toOrigin_idx hh (k := 0) (by omega)
    rwa [Ring.idx_zero hh] at hidx
  refine ⟨⟨hh, Ring.toOrigin_lt hh, fun k hk => ?_⟩, hhead⟩
  rw [Ring.toOrigin_idx hh hk, hhead]
  unfold Ring.idx
  rw [if_pos (by omega), Nat.zero_add]

end O3
end ChampSim
