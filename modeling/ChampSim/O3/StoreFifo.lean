import ChampSim.O3.Stores

/-!
# ChampSim.O3.StoreFifo

The store queue is a queue in program order.

* `Earlier first a b` — the store `a` comes before `b`, with ids counted from `first`.
* `pending_length`    — how many stores can wait, from the sizes of the buffers.
* `reaches_kept`      — with two stores an instruction, `STA` never runs full.
* `StoreFifo c s`     — the queue, its other slots, and the two ends, read off the state.
* `store_fifo`        — it holds in every state reached.
-/

namespace ChampSim
namespace O3

open Lib ChampSim.Core

variable {μ : Type} {M : Memory μ} {c : Config} {t : Trace} {O : μ → μ → Prop} {s s' : Cpu μ}

/-! ## How many stores wait -/

theorem length_storeIndices_le (c : Config) (x : OooModelInstr) :
    (storeIndices c x).length ≤ c.maxInstrDestinations :=
  (List.length_filter_le ..).trans_eq List.length_range

theorem length_flatMap_stores_le {n : Nat} {l : List OooModelInstr}
    (h : ∀ x ∈ l, (storeIndices c x).length ≤ n) :
    (l.flatMap (stores c)).length ≤ n * l.length := by
  induction l with
  | nil => exact Nat.zero_le _
  | cons x l ih =>
    have hx := h x List.mem_cons_self
    have hl := ih fun y hy => h y (List.mem_cons_of_mem x hy)
    rw [List.flatMap_cons, List.length_append, List.length_cons, Nat.mul_succ]
    have hstores : (stores c x).length = (storeIndices c x).length := List.length_map ..
    omega

theorem length_pending_le (c : Config) (s : Cpu μ) :
    (pending c s).length ≤ (inStores c s).length := by
  unfold pending
  rw [List.length_map]
  exact List.length_filter_le ..

/-- The buffers hold fewer stores of two an instruction than `STA`. -/
theorem Pipe.room (h : Pipe c s) (hstandard : c.knobCloudsuite = false) : Room c t s := by
  intro x front _
  have hd : c.maxInstrDestinations = 2 := by simp [Core.Config.maxInstrDestinations, hstandard]
  have hflat := length_flatMap_stores_le (l := inFlight s) fun x _ => length_storeIndices_le c x
  have hpending := length_pending_le c s
  have hx := length_storeIndices_le c x
  have hlen := h.length_le
  have hsta : staSize = 1408 := by decide
  unfold inStores at hpending
  rw [hd] at hflat hx
  omega

theorem reaches_kept (hstandard : c.knobCloudsuite = false) (h : Reaches M c t O s) :
    Pipe c s ∧ ∃ A P, Kept c s A P := by
  refine h.invariant (I := fun s => Pipe c s ∧ ∃ A P, Kept c s A P)
    (fun mem => ⟨pipe_init mem, [], [], kept_init mem⟩) ?_
  rintro s s' ⟨hp, A, P, hk⟩ hop
  rcases hop.move with hq | hm
  · exact ⟨hp.quiet hq, A, P, hk.quiet hq⟩
  · exact ⟨hp.move hm, hk.move hp hm fun _ => hp.room hstandard⟩

/-! ## Program order -/

/-- The store `a` comes before `b`: in an older instruction, or in the same one at a smaller index. -/
def Earlier (first : Nat) (a b : Store) : Prop :=
  sub64 a.id first < sub64 b.id first ∨ a.id = b.id ∧ a.index < b.index

theorem sub64_consecutive {first q : Nat} (hq : first ≤ q) (hlt : q < first + 2 ^ 64) :
    sub64 (q % 2 ^ 64) first = q - first := by
  unfold sub64
  omega

theorem consecutive_pairwise (first : Nat) {n : Nat} (hn : n < 2 ^ 64) :
    (consecutive first n).Pairwise fun a b => sub64 a first < sub64 b first := by
  unfold consecutive
  rw [List.pairwise_map]
  refine List.Pairwise.imp_of_mem (fun ha hb hlt => ?_) (List.pairwise_lt_range' 1)
  have ha := List.mem_range'_1.mp ha
  have hb := List.mem_range'_1.mp hb
  rw [sub64_consecutive ha.1 (by omega), sub64_consecutive hb.1 (by omega)]
  omega

theorem stores_pairwise (c : Config) (first : Nat) (x : OooModelInstr) :
    (stores c x).Pairwise (Earlier first) := by
  unfold stores
  rw [List.pairwise_map]
  exact (List.Pairwise.filter _ List.pairwise_lt_range).imp fun hlt => .inr ⟨rfl, hlt⟩

theorem Pipe.inStores_pairwise (h : Pipe c s) :
    (inStores c s).Pairwise (Earlier s.retired.length) := by
  have hids : ((inFlight s).map OooModelInstr.instrId).Pairwise fun a b =>
      sub64 a s.retired.length < sub64 b s.retired.length := by
    rw [h.ids]
    have hle := h.length_le
    exact consecutive_pairwise _ (by omega)
  refine List.pairwise_flatMap.mpr ⟨fun x _ => stores_pairwise c _ x, ?_⟩
  refine (List.pairwise_map.mp hids).imp fun hlt a ha b hb => .inl ?_
  obtain ⟨j, -, rfl⟩ := List.mem_map.mp ha
  obtain ⟨k, -, rfl⟩ := List.mem_map.mp hb
  exact hlt

/-! ## The queue -/

structure StoreFifo (c : Config) (s : Cpu μ) : Prop where
  /-- The stores in flight stand in the order of the program. -/
  ordered : (inStores c s).Pairwise (Earlier s.retired.length)
  /-- The oldest ones are in the queue, in that order, and no other. -/
  oldest : s.sq.contents.map entryKey = ((inStores c s).take s.sq.occupancy).map Store.key
  added : ∀ a ∈ inStores c s, a.added = true ↔ a ∈ (inStores c s).take s.sq.occupancy
  vacant : ∀ i < s.sq.size, ¬ s.sq.Live i → Spare (s.sq.entry i)
  /-- `add_store_queue` finds its slot empty. -/
  free : ∀ i j, s.sq.occupancy < s.sq.size →
    (s.sq.entry s.sq.tail).virtualAddress = 0 ∧ addStoreQueue c i j s ≠ none
  /-- `retire_rob` frees the head, in each round of its loop. -/
  released : (s.rob.entry s.rob.head).ip ≠ 0 → (s.rob.entry s.rob.head).executed = .completed →
    ∀ j < c.maxInstrDestinations, (s.rob.entry s.rob.head).sqIndex j ≠ uint32Max →
      (s.rob.entry s.rob.head).sqIndex j = (releaseUpTo (s.rob.entry s.rob.head) j s.sq).head

theorem Kept.take {A P : List Store} (h : Kept c s A P) :
    (inStores c s).take s.sq.occupancy = A := by
  rw [h.split, ← h.queue.length]
  exact List.take_left

theorem Kept.fifo {A P : List Store} (h : Kept c s A P) (hp : Pipe c s) : StoreFifo c s where
  ordered := hp.inStores_pairwise
  oldest := by
    rw [h.take]
    exact h.queue.contents
  added := by
    intro a ha
    rw [h.take]
    refine ⟨fun hadded => ?_, h.added a⟩
    rw [h.split] at ha
    refine (List.mem_append.mp ha).resolve_right fun hP => ?_
    rw [h.waiting a hP] at hadded
    cases hadded
  vacant := fun i hi hnot => h.queue.wf.outside i hi hnot
  free := by
    intro i j hroom
    have hempty := h.queue.free hroom
    refine ⟨hempty, ?_⟩
    unfold addStoreQueue
    rw [if_neg (not_not.mpr hempty)]
    exact Option.some_ne_none _
  released := by
    intro hip hdone j hj hne
    obtain ⟨B, rfl, -⟩ := h.head hp hip hdone s.mem
    exact h.queue.release_head (h.settled _) hj hne

theorem store_fifo (hstandard : c.knobCloudsuite = false) (h : Reaches M c t O s) :
    StoreFifo c s := by
  obtain ⟨hp, A, P, hk⟩ := reaches_kept hstandard h
  exact hk.fifo hp

/-- An instruction with two stores. -/
def twoStores : InputInstr :=
  { InputInstr.empty with
    ip := 64
    destinationMemory := fun i => if i = 0 then 4096 else if i = 1 then 8192 else 0 }

/-- One of them is read in a cycle. -/
def storingBranch : InputInstr := { twoStores with isBranch := 1, branchTaken := 1 }

theorem store_fifo_twoStores : ∃ s, echoRun twoStores 8 = some s ∧ s.sq.occupancy = 12 ∧
    StoreFifo echoConfig s := by
  have hrun : (echoRun twoStores 8).map (·.sq.occupancy) = some 12 := by decide +kernel
  obtain ⟨s, hs, hfull⟩ := Option.map_eq_some_iff.mp hrun
  exact ⟨s, hs, hfull, store_fifo rfl (echoRun_reaches hs)⟩

end O3
end ChampSim
