import ChampSim.O3.InFlight

/-!
# ChampSim.O3.Stores

The stores in flight, in program order, and the two structures that hold them.

* `Store`            — one store of an instruction, with its slot of the store queue once it has one.
* `stores c x`, `inStores c s` — the stores of an instruction, and of all those in flight.
* `Queue r A`        — the ring `r` holds the stores `A`, each in its slot.
* `Kept c s A P`     — `A` is in the store queue, and `STA` lists the instructions of `P`.
* `split_unique`     — the oldest store outside the queue, found by its instruction.
-/

namespace ChampSim
namespace O3

open Lib ChampSim.Core

variable {μ : Type}

structure Store where
  id : Nat
  index : Nat
  address : Nat
  added : Bool
  slot : Nat
deriving DecidableEq, Repr

def Store.key (a : Store) : Nat × Nat × Nat := (a.id, a.index, a.address)

def storeOf (x : OooModelInstr) (j : Nat) : Store :=
  ⟨x.instrId, j, x.destinationMemory j, x.destinationAdded j, x.sqIndex j⟩

def stores (c : Config) (x : OooModelInstr) : List Store := (storeIndices c x).map (storeOf x)

def inStores (c : Config) (s : Cpu μ) : List Store := (inFlight s).flatMap (stores c)

/-- What an entry of the store queue says about its store. -/
def entryKey (e : LsqEntry) : Nat × Nat × Nat := (e.instrId, e.dataIndex, e.virtualAddress)

/-- A slot of the store queue that no store occupies. -/
def Spare (e : LsqEntry) : Prop := untranslated e = .empty

structure Queue (r : Lib.Ring LsqEntry) (l : List Store) : Prop where
  size : r.size = sqSize
  wf : Ring.Wf Spare r
  contents : r.contents.map entryKey = l.map Store.key
  slots : l.map Store.slot = (List.range r.occupancy).map (Ring.idx r.size r.head)

/-! ## The queue -/

section Queue

variable {r r' : Lib.Ring LsqEntry} {l : List Store} {a : Store} {e : LsqEntry}

theorem Queue.length (h : Queue r l) : l.length = r.occupancy := by
  have hlen := congrArg List.length h.contents
  simp only [List.length_map, Ring.contents_length] at hlen
  exact hlen.symm

theorem Queue.head_lt (h : Queue r l) : r.head < r.size := h.wf.head_lt (by rw [h.size]; decide)

theorem Queue.alike (h : Queue r l) (ha : Ring.Alike untranslated r r') : Queue r' l where
  size := ha.size.trans h.size
  wf := ha.wf (fun _ _ heq hy => heq.trans hy) h.wf
  contents := by
    have hmap := congrArg (List.map entryKey) ha.contents
    simp only [List.map_map] at hmap
    exact hmap.trans h.contents
  slots := by
    rw [h.slots, ha.occupancy, ha.size, ha.head]

/-- A store enters at the tail. -/
theorem Queue.push (h : Queue r l) (hroom : r.occupancy < r.size) (hkey : entryKey e = a.key)
    (hslot : a.slot = r.tail) : Queue (r.push e) (l ++ [a]) where
  size := h.size
  wf := h.wf.push hroom e
  contents := by
    rw [Ring.push_contents h.wf hroom, List.map_append, List.map_append, h.contents,
      List.map_singleton, List.map_singleton, hkey]
  slots := by
    rw [List.map_append, h.slots, List.map_singleton, hslot, h.wf.tail_eq]
    show _ = (List.range (r.occupancy + 1)).map (Ring.idx r.size r.head)
    rw [List.range_succ, List.map_append, List.map_singleton]

/-- The oldest store stands at the head, and leaves from there. -/
theorem Queue.pop (h : Queue r (a :: l)) : a.slot = r.head ∧ Queue (r.pop .empty) l := by
  have hlen := h.length
  rw [List.length_cons] at hlen
  have hpos : 0 < r.occupancy := by omega
  have hslots := h.slots
  rw [← hlen, List.range_succ_eq_map, List.map_cons, List.map_cons, List.map_map,
    Ring.idx_zero h.head_lt] at hslots
  obtain ⟨hhead, htail⟩ := List.cons.inj hslots
  have hpop := Ring.pop_contents h.wf hpos LsqEntry.empty
  have hcontents := h.contents
  rw [hpop, List.map_cons, List.map_cons] at hcontents
  refine ⟨hhead, h.size, h.wf.pop hpos rfl, (List.cons.inj hcontents).2, ?_⟩
  rw [htail]
  show _ = (List.range (r.occupancy - 1)).map (Ring.idx r.size (Ring.next r.size r.head))
  rw [← hlen, Nat.add_sub_cancel]
  refine List.map_congr_left fun k hk => ?_
  have hocc := h.wf.occ_le
  exact (Ring.idx_next h.head_lt (by have := List.mem_range.mp hk; omega)).symm

theorem Queue.free (h : Queue r l) (hroom : r.occupancy < r.size) :
    (r.entry r.tail).virtualAddress = 0 := congrArg LsqEntry.virtualAddress (h.wf.tail_empty hroom)

theorem Queue.slot_lt (h : Queue r l) (ha : a ∈ l) : a.slot < sqSize := by
  have hmem := List.mem_map_of_mem (f := Store.slot) ha
  rw [h.slots] at hmem
  obtain ⟨k, hk, hslot⟩ := List.mem_map.mp hmem
  have hocc := h.wf.occ_le
  have hlt := List.mem_range.mp hk
  rw [← hslot, ← h.size]
  exact Ring.idx_lt h.head_lt (by omega)

end Queue

/-! ## The split -/

section Split

variable {l l₁ l₂ : List Store} {P A : List Store} {a : Store}

/-- The first store outside the queue is the boundary. -/
theorem split_unique (h : A ++ P = l₁ ++ a :: l₂) (hA : ∀ x ∈ A, x.added = true)
    (hP : ∀ x ∈ P, x.added = false) (hl : ∀ x ∈ l₁, x.added = true) (ha : a.added = false) :
    A = l₁ ∧ P = a :: l₂ := by
  rcases List.append_eq_append_iff.mp h with ⟨m, rfl, hm⟩ | ⟨m, rfl, hm⟩
  · cases m with
    | nil => exact ⟨(List.append_nil A).symm, by simpa using hm⟩
    | cons x m =>
      have hx := hl x (List.mem_append_right A List.mem_cons_self)
      rw [hP x (by rw [hm]; exact List.mem_cons_self)] at hx
      cases hx
  · cases m with
    | nil => exact ⟨List.append_nil l₁, by simpa using hm.symm⟩
    | cons x m =>
      obtain ⟨rfl, -⟩ := List.cons.inj hm
      rw [hA a (List.mem_append_right l₁ List.mem_cons_self)] at ha
      cases ha

/-- The stores at the front that are in the queue are a part of those in the queue. -/
theorem split_prefix (h : A ++ P = l₁ ++ l₂) (hP : ∀ x ∈ P, x.added = false)
    (hl : ∀ x ∈ l₁, x.added = true) : ∃ B, A = l₁ ++ B ∧ l₂ = B ++ P := by
  rcases List.append_eq_append_iff.mp h with ⟨m, rfl, hm⟩ | ⟨m, hA, hm⟩
  · cases m with
    | nil => exact ⟨[], by simp, by simpa using hm.symm⟩
    | cons x m =>
      have hx := hl x (List.mem_append_right A List.mem_cons_self)
      rw [hP x (by rw [hm]; exact List.mem_cons_self)] at hx
      cases hx
  · exact ⟨m, hA, hm⟩

/-- The first store outside the queue lies in every front part that has one. -/
theorem first_mem (h : A ++ a :: P = l₁ ++ l₂) (hA : ∀ x ∈ A, x.added = true)
    {b : Store} (hb : b ∈ l₁) (hout : b.added = false) : a ∈ l₁ := by
  have hnot : b ∉ A := fun hmem => by
    rw [hA b hmem] at hout
    cases hout
  rcases List.append_eq_append_iff.mp h with ⟨m, rfl, hm⟩ | ⟨m, rfl, hm⟩
  · cases m with
    | nil => exact absurd (by simpa using hb) hnot
    | cons x m =>
      obtain ⟨rfl, -⟩ := List.cons.inj hm
      exact List.mem_append_right A List.mem_cons_self
  · exact absurd (List.mem_append_left m hb) hnot

end Split

/-! ## The stores of an instruction -/

section Instr

variable {c : Config} {x y : OooModelInstr} {j : Nat}

theorem stable_stores (c : Config) : Stable (stores c) := ⟨fun _ => rfl, fun _ => rfl⟩

theorem mem_storeIndices : j ∈ storeIndices c x ↔
    j < c.maxInstrDestinations ∧ x.destinationMemory j ≠ 0 := by
  simp [storeIndices]

/-- The destinations with a store, around one of them. -/
theorem storeIndices_split (hj : j ∈ storeIndices c x) :
    ∃ l₁ l₂, storeIndices c x = l₁ ++ j :: l₂ ∧ (∀ k ∈ l₁, k < j ∧ k ∈ storeIndices c x) ∧
      ∀ k ∈ l₂, k ≠ j := by
  obtain ⟨l₁, l₂, hsplit⟩ := List.append_of_mem hj
  have hsorted : (storeIndices c x).Pairwise (· < ·) :=
    List.Pairwise.filter _ List.pairwise_lt_range
  rw [hsplit] at hsorted
  obtain ⟨-, hcons, hcross⟩ := List.pairwise_append.mp hsorted
  refine ⟨l₁, l₂, hsplit, fun k hk => ⟨hcross k hk j List.mem_cons_self, ?_⟩, fun k hk => ?_⟩
  · rw [hsplit]
    exact List.mem_append_left _ hk
  · exact ((List.pairwise_cons.mp hcons).1 k hk).ne'

structure Settled (c : Config) (x : OooModelInstr) : Prop where
  storeless : x.isMemory = false → storeIndices c x = []
  executed : x.executed ≠ .idle → ∀ j ∈ storeIndices c x, x.destinationAdded j = true
  index : ∀ j, x.destinationAdded j = false → x.sqIndex j = uint32Max
  added : ∀ j, x.destinationAdded j = true → j ∈ storeIndices c x

/-- The fields that `Settled` is about. -/
def settledView (x : OooModelInstr) :
    Bool × Progress × (Nat → Nat) × (Nat → Bool) × (Nat → Nat) :=
  (x.isMemory, x.executed, x.destinationMemory, x.destinationAdded, x.sqIndex)

theorem Settled.congr (h : Settled c x) (hv : settledView y = settledView x) : Settled c y := by
  have hmemory : y.isMemory = x.isMemory := congrArg (·.1) hv
  have hexecuted : y.executed = x.executed := congrArg (·.2.1) hv
  have hdest : y.destinationMemory = x.destinationMemory := congrArg (·.2.2.1) hv
  have hadded : y.destinationAdded = x.destinationAdded := congrArg (·.2.2.2.1) hv
  have hsq : y.sqIndex = x.sqIndex := congrArg (·.2.2.2.2) hv
  have hindices : storeIndices c y = storeIndices c x := by
    unfold storeIndices
    rw [hdest]
  constructor
  · rw [hmemory, hindices]
    exact h.storeless
  · rw [hexecuted, hindices, hadded]
    exact h.executed
  · rw [hadded, hsq]
    exact h.index
  · rw [hadded, hindices]
    exact h.added

theorem Fresh.settled (h : Fresh c x) : Settled c x where
  storeless := by
    intro hm
    have hcount : ¬ x.numMemOps > 0 := by
      have hmemory := h.isMemory
      rw [hm] at hmemory
      exact of_decide_eq_false hmemory.symm
    rw [h.numMemOps] at hcount
    have hnil : ((List.range c.maxInstrDestinations).filter fun i =>
        x.destinationMemory i != 0).length = 0 := by
      unfold countNonzero at hcount
      omega
    rw [List.length_eq_zero_iff] at hnil
    unfold storeIndices
    rw [← hnil]
    refine List.filter_congr fun i _ => ?_
    by_cases hz : x.destinationMemory i = 0
    · simp [hz]
    · simp [hz]
  executed := fun hne => absurd h.executed hne
  index := fun j _ => by rw [h.sqIndex]
  added := fun j hj => by
    rw [h.destinationAdded] at hj
    cases hj

theorem Fresh.not_added (h : Fresh c x) {a : Store} (ha : a ∈ stores c x) : a.added = false := by
  obtain ⟨j, -, rfl⟩ := List.mem_map.mp ha
  show x.destinationAdded j = false
  rw [h.destinationAdded]

theorem settled_empty : Settled c .empty := fresh_empty.settled

theorem Settled.markCompleted (h : Settled c x) (hx : x.executed ≠ .idle) :
    Settled c (markCompleted x) :=
  ⟨h.storeless, fun _ => h.executed hx, h.index, h.added⟩

theorem Settled.markIssued (h : Settled c x) (hmemory : x.isMemory = false) (cycle latency : Nat) :
    Settled c (markIssued cycle latency x) := by
  refine ⟨h.storeless, fun _ j hj => ?_, h.index, h.added⟩
  have hj : j ∈ storeIndices c x := hj
  rw [h.storeless hmemory] at hj
  exact absurd hj List.not_mem_nil

theorem Settled.markMemoryScheduled (h : Settled c x) (hall : AllAdded c x) :
    Settled c (markMemoryScheduled x) := by
  refine ⟨h.storeless, fun _ j hj => ?_, h.index, h.added⟩
  obtain ⟨hlt, hne⟩ := mem_storeIndices.mp hj
  exact hall.destination j hlt hne

end Instr

/-! ## The stores in flight -/

structure Kept (c : Config) (s : Cpu μ) (A P : List Store) : Prop where
  split : inStores c s = A ++ P
  added : ∀ a ∈ A, a.added = true
  waiting : ∀ a ∈ P, a.added = false
  queue : Queue s.sq A
  sta : s.sta.Holds (P.map Store.id)
  staSize : s.sta.size = staSize
  staMark : s.sta.mark = u64Max
  settled : ∀ i, Settled c (s.rob.entry i)

/-- The ids of the stores that are not yet in the store queue. -/
def pending (c : Config) (s : Cpu μ) : List Nat :=
  ((inStores c s).filter fun a => !a.added).map Store.id

section Kept

variable {c : Config} {t : Trace} {s s' : Cpu μ} {A P : List Store}

theorem Kept.pending (h : Kept c s A P) : pending c s = P.map Store.id := by
  unfold O3.pending
  rw [h.split, List.filter_append]
  rw [List.filter_eq_nil_iff.mpr fun a ha => by rw [h.added a ha]; decide,
    List.filter_eq_self.mpr fun a ha => by rw [h.waiting a ha]; decide, List.nil_append]

theorem kept_init (mem : μ) : Kept c (.init mem) [] [] where
  split := rfl
  added := fun _ h => absurd h List.not_mem_nil
  waiting := fun _ h => absurd h List.not_mem_nil
  queue := ⟨rfl, Ring.wf_init _ _ fun _ _ => rfl, rfl, rfl⟩
  sta := Feed.holds_new (by decide)
  staSize := rfl
  staMark := rfl
  settled := fun _ => settled_empty

theorem inStores_of_map (h : (inFlight s').map (stores c) = (inFlight s).map (stores c)) :
    inStores c s' = inStores c s := by
  unfold inStores
  rw [List.flatMap_def, List.flatMap_def, h]

/-- The steps that leave the stores as they are. -/
theorem Kept.congr (h : Kept c s A P) (hs : inStores c s' = inStores c s)
    (hq : Ring.Alike untranslated s.sq s'.sq) (hsta : s'.sta = s.sta)
    (hsettled : ∀ i, Settled c (s'.rob.entry i)) : Kept c s' A P where
  split := hs.trans h.split
  added := h.added
  waiting := h.waiting
  queue := h.queue.alike hq
  sta := hsta ▸ h.sta
  staSize := hsta ▸ h.staSize
  staMark := hsta ▸ h.staMark
  settled := hsettled

theorem settled_alike {r r' : Lib.Ring OooModelInstr} (ha : Ring.Alike settledView r r')
    (h : ∀ i, Settled c (r.entry i)) (i : Nat) : Settled c (r'.entry i) := (h i).congr (ha.entry i)

theorem Kept.quiet (h : Kept c s A P) (hq : Quiet steady s s') : Kept c s' A P :=
  h.congr (inStores_of_map (hq.inFlight (stable_stores c))) hq.sq (congrArg Rest.sta hq.rest)
    (settled_alike (hq.rob.comp settledView) h.settled)

/-! ## Reading -/

/-- The pushes of `n` stores of one instruction into an array with room for them. -/
theorem updateSta_holds (id : Nat) (n : Nat) :
    ∀ {sta : Feed} {l : List Nat}, sta.Holds l → sta.mark = u64Max → l.length + n ≤ sta.size →
      ∃ sta', updateSta id n sta = some sta' ∧ sta'.Holds (l ++ List.replicate n id) ∧
        sta'.size = sta.size ∧ sta'.mark = sta.mark := by
  induction n with
  | zero =>
    intro sta l h _ _
    exact ⟨sta, rfl, by simpa using h, rfl, rfl⟩
  | succ n ih =>
    intro sta l h hmark hroom
    have hfree := h.free (by omega)
    obtain ⟨sta', hrun, hholds, hsize, hmark'⟩ := ih (h.push (by omega) id) hmark
      (by rw [List.length_append, List.length_singleton, Feed.push_size]; omega)
    refine ⟨sta', ?_, ?_, hsize, hmark'⟩
    · unfold updateSta
      rw [if_neg, hrun]
      rintro ⟨hlt, -⟩
      rw [hfree, hmark] at hlt
      exact lt_irrefl _ hlt
    · rwa [List.append_assoc, List.singleton_append, ← List.replicate_succ] at hholds

/-- There is room in `STA` for the stores of the next record. -/
def Room (c : Config) (t : Trace) (s : Cpu μ) : Prop :=
  ∀ x front, readRecord c.toConfig t s.toState = some (x, front) →
    (pending c s).length + (storeIndices c x).length ≤ staSize

theorem stores_ids (x : OooModelInstr) :
    (stores c x).map Store.id = List.replicate (storeIndices c x).length x.instrId := by
  rw [List.eq_replicate_iff]
  refine ⟨by simp [stores], fun id hid => ?_⟩
  obtain ⟨a, ha, rfl⟩ := List.mem_map.mp hid
  obtain ⟨j, -, rfl⟩ := List.mem_map.mp ha
  rfl

theorem Kept.read (h : Kept c s A P) {x : OooModelInstr} {front : State}
    {sta : Feed} {y : OooModelInstr} (hroom : Room c t s)
    (hrecord : readRecord c.toConfig t s.toState = some (x, front))
    (hsta : updateSta x.instrId (storeIndices c x).length s.sta = some sta)
    (hy : stores c y = stores c x) (hlist : inFlight s' = inFlight s ++ [y])
    (hrob : s'.rob = s.rob) (hsq : s'.sq = s.sq) (hs' : s'.sta = sta) :
    Kept c s' A (P ++ stores c x) := by
  have hfit := hroom x front hrecord
  rw [h.pending, ← h.staSize] at hfit
  obtain ⟨sta', hrun, hholds, hsize, hmark⟩ := updateSta_holds x.instrId _ h.sta h.staMark hfit
  obtain rfl : sta' = sta := Option.some.inj (hrun.symm.trans hsta)
  refine ⟨?_, h.added, fun a ha => ?_, hsq ▸ h.queue, ?_, ?_, ?_, hrob ▸ h.settled⟩
  · unfold inStores
    rw [hlist, List.flatMap_append, List.flatMap_singleton, hy, ← List.append_assoc]
    exact congrArg (· ++ _) h.split
  · rcases List.mem_append.mp ha with ha | ha
    · exact h.waiting a ha
    · exact (readRecord_fresh hrecord).not_added ha
  · rw [hs', List.map_append, stores_ids]
    exact hholds
  · rw [hs', hsize, h.staSize]
  · rw [hs', hmark, h.staMark]

/-! ## A store enters the queue -/

theorem settled_modify {r : Lib.Ring OooModelInstr} {i : Nat} {f : OooModelInstr → OooModelInstr}
    (h : ∀ k, Settled c (r.entry k)) (hf : Settled c (f (r.entry i))) (k : Nat) :
    Settled c ((modify r i f).entry k) := by
  by_cases hk : k = i
  · subst hk
    rw [modify_self]
    exact hf
  · rw [modify_ne hk]
    exact h k

theorem storeOf_storeAdded {x : OooModelInstr} {j k n : Nat} (hk : k ≠ j) :
    storeOf (storeAdded j n x) k = storeOf x k := by
  simp [storeOf, storeAdded, Function.update_of_ne hk]

/-- The store `j` of `x`, in the slot `n` of the queue. -/
def addedStore (x : OooModelInstr) (j n : Nat) : Store :=
  ⟨x.instrId, j, x.destinationMemory j, true, n⟩

/-- The stores of the instruction, before and after one of them is entered. -/
theorem stores_storeAdded {x : OooModelInstr} {j : Nat} (hj : j ∈ storeIndices c x)
    (hbefore : ∀ k < j, x.destinationMemory k ≠ 0 → x.destinationAdded k = true) (n : Nat) :
    ∃ l₁ l₂, stores c x = l₁ ++ storeOf x j :: l₂ ∧ (∀ a ∈ l₁, a.added = true) ∧
      stores c (storeAdded j n x) = l₁ ++ addedStore x j n :: l₂ := by
  obtain ⟨l₁, l₂, hsplit, hlt, hne⟩ := storeIndices_split hj
  refine ⟨l₁.map (storeOf x), l₂.map (storeOf x), ?_, fun a ha => ?_, ?_⟩
  · unfold stores
    rw [hsplit, List.map_append, List.map_cons]
  · obtain ⟨k, hk, rfl⟩ := List.mem_map.mp ha
    obtain ⟨hkj, hmem⟩ := hlt k hk
    exact hbefore k hkj (mem_storeIndices.mp hmem).2
  · have hindices : storeIndices c (storeAdded j n x) = storeIndices c x := rfl
    unfold stores
    rw [hindices, hsplit, List.map_append, List.map_cons]
    congr 1
    · exact List.map_congr_left fun k hk => storeOf_storeAdded (Nat.ne_of_lt (hlt k hk).1)
    · congr 1
      · simp [storeOf, storeAdded, addedStore]
      · exact List.map_congr_left fun k hk => storeOf_storeAdded (hne k hk)

/-- `STA` names the instruction of the oldest store outside the queue. -/
theorem Kept.boundary (h : Kept c s A P) (hp : Pipe c s) {x : OooModelInstr}
    {l₁ l₂ : List OooModelInstr} {m₁ m₂ : List Store} {a : Store}
    (hlist : inFlight s = l₁ ++ x :: l₂) (hstores : stores c x = m₁ ++ a :: m₂)
    (hm : ∀ b ∈ m₁, b.added = true) (ha : a.added = false) (hfront : s.sta.front = x.instrId) :
    A = l₁.flatMap (stores c) ++ m₁ ∧ P = a :: (m₂ ++ l₂.flatMap (stores c)) := by
  have hids := hp.nodup
  rw [hlist, List.map_append, List.map_cons, List.nodup_append] at hids
  have hall : A ++ P = (l₁.flatMap (stores c) ++ m₁) ++ a :: (m₂ ++ l₂.flatMap (stores c)) := by
    rw [← h.split]
    unfold inStores
    rw [hlist, List.flatMap_append, List.flatMap_cons, hstores]
    simp
  -- an older store outside the queue would be the front of `STA`
  have hold : ∀ b ∈ l₁.flatMap (stores c), b.added = true := by
    intro b hb
    by_contra hne
    have hmem : b ∈ A ++ P := by
      rw [hall, List.append_assoc]
      exact List.mem_append_left _ hb
    obtain ⟨p, P', rfl⟩ : ∃ p P', P = p :: P' := List.exists_cons_of_ne_nil fun hnil => by
      rw [hnil, List.append_nil] at hmem
      exact hne (h.added b hmem)
    have hp' := first_mem (hall.trans (List.append_assoc ..)) h.added hb (by simpa using hne)
    obtain ⟨y, hy, hpy⟩ := List.mem_flatMap.mp hp'
    obtain ⟨j, -, rfl⟩ := List.mem_map.mp hpy
    have hid : y.instrId = x.instrId := h.sta.front.symm.trans hfront
    exact hids.2.2 y.instrId (List.mem_map_of_mem hy) x.instrId List.mem_cons_self hid
  refine split_unique hall h.added h.waiting (fun b hb => ?_) ha
  exact (List.mem_append.mp hb).elim (hold b) (hm b)

theorem Settled.storeAdded {x : OooModelInstr} {j n : Nat} (h : Settled c x)
    (hmemory : x.isMemory = true) (hj : j ∈ storeIndices c x) :
    Settled c (O3.storeAdded j n x) where
  storeless := fun hm => absurd (hmemory.symm.trans hm) (by decide)
  executed := by
    intro hx k hk
    by_cases hkj : k = j
    · rw [hkj]
      exact Function.update_self ..
    · exact (Function.update_of_ne hkj ..).trans (h.executed hx k hk)
  index := by
    intro k hk
    by_cases hkj : k = j
    · rw [hkj] at hk
      exact absurd ((Function.update_self ..).symm.trans hk) (by decide)
    · exact (Function.update_of_ne hkj ..).trans
        (h.index k ((Function.update_of_ne hkj ..).symm.trans hk))
  added := by
    intro k hk
    by_cases hkj : k = j
    · rw [hkj]
      exact hj
    · exact h.added k ((Function.update_of_ne hkj ..).symm.trans hk)

theorem Kept.addStore {i j : Nat} (h : Kept c s A P) (hp : Pipe c s) (hi : Candidate s i)
    (hj : j < c.maxInstrDestinations) (hm : (s.rob.entry i).destinationMemory j ≠ 0)
    (ha : (s.rob.entry i).destinationAdded j = false)
    (hbefore : ∀ k < j, (s.rob.entry i).destinationMemory k ≠ 0 →
      (s.rob.entry i).destinationAdded k = true)
    (hroom : s.sq.occupancy < s.sq.size) (hsta : s.sta.front = (s.rob.entry i).instrId)
    (hs : addStoreQueue c i j s = some s') : ∃ A' P', Kept c s' A' P' := by
  have hlive := hp.flow.live_candidate hi
  have hmem : j ∈ storeIndices c (s.rob.entry i) := mem_storeIndices.mpr ⟨hj, hm⟩
  obtain ⟨l₁, l₂, hlist, hmodify⟩ := hp.split_rob hlive
  obtain ⟨m₁, m₂, hstores, hm₁, hstores'⟩ := stores_storeAdded hmem hbefore s.sq.tail
  obtain ⟨hA, hP⟩ := h.boundary hp hlist hstores hm₁ ha hsta
  obtain ⟨-, hs'⟩ := addStoreQueue_eq hs
  have hlist' := hmodify (O3.storeAdded j s.sq.tail) s' (by rw [hs']) (by rw [hs']) (by rw [hs'])
  refine ⟨A ++ [addedStore (s.rob.entry i) j s.sq.tail], m₂ ++ l₂.flatMap (stores c), ?_, fun a ha => ?_,
    fun a ha => h.waiting a ?_, ?_, ?_, ?_, ?_, ?_⟩
  · unfold inStores
    rw [hlist', List.flatMap_append, List.flatMap_cons, hstores', hA]
    simp
  · rcases List.mem_append.mp ha with ha | ha
    · exact h.added a ha
    · rw [List.mem_singleton.mp ha]
      rfl
  · rw [hP]
    exact List.mem_cons_of_mem _ ha
  · rw [hs']
    exact h.queue.push hroom rfl rfl
  · have hholds := h.sta
    rw [hP, List.map_cons] at hholds
    rw [hs']
    exact hholds.pop
  · rw [hs']
    exact h.staSize
  · rw [hs']
    exact h.staMark
  · rw [hs']
    exact settled_modify h.settled ((h.settled i).storeAdded hi.memory hmem)

/-! ## An instruction retires -/

/-- All stores of an instruction that has executed are in the queue. -/
theorem Kept.head (h : Kept c s A P) (hp : Pipe c s) (hip : (s.rob.entry s.rob.head).ip ≠ 0)
    (hdone : (s.rob.entry s.rob.head).executed = .completed) (mem : μ) :
    ∃ B, A = stores c (s.rob.entry s.rob.head) ++ B ∧
      inStores c (releaseHead c { s with mem := mem }) = B ++ P := by
  have hsplit := h.split
  unfold inStores at hsplit
  rw [hp.retire_inFlight hip mem, List.flatMap_cons] at hsplit
  refine split_prefix hsplit.symm h.waiting fun a ha => ?_
  obtain ⟨j, hj, rfl⟩ := List.mem_map.mp ha
  exact (h.settled _).executed (by rw [hdone]; decide) j hj

/-- The stores of `x` from the destination `n` on. -/
def storesFrom (c : Config) (x : OooModelInstr) (n : Nat) : List Store :=
  ((List.range' n (c.maxInstrDestinations - n)).filter fun i => x.destinationMemory i ≠ 0).map
    (storeOf x)

theorem storesFrom_zero (x : OooModelInstr) : storesFrom c x 0 = stores c x := by
  unfold storesFrom stores storeIndices
  rw [List.range_eq_range', Nat.sub_zero]

theorem storesFrom_succ (x : OooModelInstr) {n : Nat} (hn : n < c.maxInstrDestinations) :
    storesFrom c x n =
      if x.destinationMemory n ≠ 0 then storeOf x n :: storesFrom c x (n + 1)
      else storesFrom c x (n + 1) := by
  unfold storesFrom
  obtain ⟨m, hm⟩ : ∃ m, c.maxInstrDestinations - n = m + 1 :=
    ⟨c.maxInstrDestinations - n - 1, by omega⟩
  have hm' : c.maxInstrDestinations - (n + 1) = m := by omega
  rw [hm, hm', List.range'_succ, List.filter_cons]
  by_cases hz : x.destinationMemory n = 0
  · simp [hz]
  · simp [hz]

/-- The first `n` rounds of the loop of `retire_rob` that releases the stores of `x`. -/
def releaseUpTo (x : OooModelInstr) (n : Nat) (r : Lib.Ring LsqEntry) : Lib.Ring LsqEntry :=
  (List.range n).foldl (fun r i =>
    if x.sqIndex i ≠ uint32Max then releaseStore (x.sqIndex i) r else r) r

theorem releaseUpTo_succ (x : OooModelInstr) (n : Nat) (r : Lib.Ring LsqEntry) :
    releaseUpTo x (n + 1) r = if x.sqIndex n ≠ uint32Max then
      releaseStore (x.sqIndex n) (releaseUpTo x n r) else releaseUpTo x n r := by
  unfold releaseUpTo
  rw [List.range_succ, List.foldl_append]
  rfl

/-- A slot is noted for a destination exactly when it has a store. -/
theorem Settled.noted {x : OooModelInstr} (hx : Settled c x)
    (hslot : ∀ a ∈ stores c x, a.slot < sqSize) {n : Nat} (hn : n < c.maxInstrDestinations) :
    x.sqIndex n ≠ uint32Max ↔ x.destinationMemory n ≠ 0 := by
  constructor
  · intro hne
    have hadded : x.destinationAdded n = true :=
      Bool.eq_true_of_not_eq_false fun hout => hne (hx.index n hout)
    exact (mem_storeIndices.mp (hx.added n hadded)).2
  · intro hm heq
    have hlt : x.sqIndex n < sqSize :=
      hslot (storeOf x n) (List.mem_map_of_mem (mem_storeIndices.mpr ⟨hn, hm⟩))
    rw [heq] at hlt
    exact absurd hlt (by decide)

theorem Queue.releaseUpTo {x : OooModelInstr} {r : Lib.Ring LsqEntry} {B : List Store}
    (h : Queue r (stores c x ++ B)) (hx : Settled c x) (n : Nat)
    (hn : n ≤ c.maxInstrDestinations) :
    Queue (O3.releaseUpTo x n r) (storesFrom c x n ++ B) := by
  have hslot : ∀ a ∈ stores c x, a.slot < sqSize := fun a ha =>
    h.slot_lt (List.mem_append_left B ha)
  induction n with
  | zero =>
    rw [storesFrom_zero]
    exact h
  | succ n ih =>
    have hprev := ih (by omega)
    rw [storesFrom_succ x (by omega)] at hprev
    rw [releaseUpTo_succ]
    by_cases hm : x.destinationMemory n ≠ 0
    · rw [if_pos hm, List.cons_append] at hprev
      obtain ⟨hhead, hpop⟩ := hprev.pop
      have hhead : x.sqIndex n = (O3.releaseUpTo x n r).head := hhead
      rw [if_pos ((hx.noted hslot (by omega)).mpr hm), hhead]
      exact hpop
    · rw [if_neg hm] at hprev
      rw [if_neg ((hx.noted hslot (by omega)).not.mpr hm)]
      exact hprev

/-- Each slot that the loop names is the head at that time. -/
theorem Queue.release_head {x : OooModelInstr} {r : Lib.Ring LsqEntry} {B : List Store}
    (h : Queue r (stores c x ++ B)) (hx : Settled c x) {n : Nat} (hn : n < c.maxInstrDestinations)
    (hne : x.sqIndex n ≠ uint32Max) : x.sqIndex n = (O3.releaseUpTo x n r).head := by
  have hslot : ∀ a ∈ stores c x, a.slot < sqSize := fun a ha =>
    h.slot_lt (List.mem_append_left B ha)
  have hprev := h.releaseUpTo hx n (by omega)
  rw [storesFrom_succ x hn, if_pos ((hx.noted hslot hn).mp hne), List.cons_append] at hprev
  exact hprev.pop.1

theorem Kept.retire (h : Kept c s A P) (hp : Pipe c s) (hip : (s.rob.entry s.rob.head).ip ≠ 0)
    (hdone : (s.rob.entry s.rob.head).executed = .completed) (mem : μ) :
    ∃ B, Kept c (releaseHead c { s with mem := mem }) B P := by
  obtain ⟨B, rfl, hsplit⟩ := h.head hp hip hdone mem
  refine ⟨B, hsplit, fun a ha => h.added a (List.mem_append_right _ ha), h.waiting, ?_, h.sta,
    h.staSize, h.staMark, fun i => ?_⟩
  · have hrelease := h.queue.releaseUpTo (h.settled _) c.maxInstrDestinations le_rfl
    rw [storesFrom, Nat.sub_self] at hrelease
    exact hrelease
  · exact Ring.forall_pop (r := s.rob) h.settled settled_empty i

/-! ## All steps -/

theorem Kept.move (h : Kept c s A P) (hp : Pipe c s) (hm : Move c t s s')
    (hroom : s'.instrUniqueId ≠ s.instrUniqueId → Room c t s) : ∃ A' P', Kept c s' A' P' := by
  cases hm with
  | tick => exact ⟨A, P, h.congr rfl (.refl ..) rfl h.settled⟩
  | read env b hspace hstall hrecord hsta =>
    rename_i x front sta
    have hne : add64 s.instrUniqueId 1 ≠ s.instrUniqueId := by
      have hlt : s.instrUniqueId < 2 ^ 64 := by
        rw [hp.unique]
        exact Nat.mod_lt _ (by decide)
      unfold add64
      omega
    exact ⟨A, _, h.read (hroom hne) hrecord hsta
      (y := predicted b (ifetchEntry (env.front s.cycle) x)) rfl
      (hp.push_ifetch hspace _ rfl rfl rfl) rfl rfl rfl⟩
  | resume env =>
    unfold resumeFetch
    split
    · exact ⟨A, P, h.congr rfl (.refl ..) rfl h.settled⟩
    · exact ⟨A, P, h⟩
  | toDecode hip hspace =>
    exact ⟨A, P, h.congr (inStores_of_map (hp.toDecode_inFlight (stable_stores c) hip hspace))
      (.refl ..) rfl h.settled⟩
  | toRob hip hspace =>
    refine ⟨A, P, h.congr (inStores_of_map (hp.toRob_inFlight (stable_stores c) hip hspace))
      (.refl ..) rfl fun i => ?_⟩
    have hx : Settled c (setEventCycle s.cycle (s.decodeBuffer.entry s.decodeBuffer.head)) :=
      (hp.flow.decode _).settled.congr rfl
    exact Ring.forall_push (r := s.rob) h.settled hx i
  | complete hc =>
    rename_i p
    rcases hp.flow.completes hc with rfl | hdone
    · exact ⟨A, P, h⟩
    · have hrest := hdone.rest
      have hsettled : Settled c (markCompleted (s.rob.entry p)) :=
        (h.settled p).markCompleted (by rw [hdone.inflight]; decide)
      refine ⟨A, P, h.congr (inStores_of_map (inFlight_rob ?_ (by rw [hrest]) (by rw [hrest])))
        (by rw [hrest]; exact .refl ..) (by rw [hrest]) ?_⟩
      · exact (alike_modify (π := stores c) (f := markCompleted) rfl).trans
          (hdone.shape.comp (stores c))
      · exact settled_alike (hdone.shape.comp settledView) (settled_modify h.settled hsettled)
  | schedule hf hidle hs =>
    have hsched := hp.flow.schedules hf hidle hs
    have hrest := hsched.rest
    exact ⟨A, P, h.congr (inStores_of_map (inFlight_rob (hsched.rob.comp (stores c))
      (by rw [hrest]) (by rw [hrest]))) (by rw [hrest]; exact .refl ..) (by rw [hrest])
      (settled_alike (hsched.rob.comp settledView) h.settled)⟩
  | execute hi he =>
    rename_i b
    have hwait := hp.flow.front_waits hi
    have hsettled : Settled c (markIssued s.cycle c.execLatency (s.rob.entry (s.rte b).front)) :=
      (h.settled _).markIssued hwait.memory _ _
    exact ⟨A, P, h.congr (inStores_of_map (inFlight_rob (alike_modify (π := stores c)
      (f := markIssued s.cycle c.execLatency) rfl) rfl rfl)) (.refl ..) rfl
      (settled_modify h.settled hsettled)⟩
  | addStore hi hj hm ha hbefore hspace hsta hs =>
    exact h.addStore hp hi hj hm ha hbefore hspace hsta hs
  | memoryScheduled hi hall =>
    rename_i i
    have hsettled : Settled c (markMemoryScheduled (s.rob.entry i)) :=
      (h.settled i).markMemoryScheduled hall
    rw [memoryScheduled_eq]
    exact ⟨A, P, h.congr (inStores_of_map (inFlight_rob (alike_modify (π := stores c)
      (f := markMemoryScheduled) rfl) rfl rfl)) (.refl ..) rfl
      (settled_modify h.settled hsettled)⟩
  | retire hip hdone =>
    rename_i mem
    obtain ⟨B, hB⟩ := h.retire hp hip hdone mem
    exact ⟨B, P, hB⟩

end Kept

end O3
end ChampSim
