import ChampSim.O3.Steps

/-!
# ChampSim.O3.Moves

The steps that move instructions, and the others.

* `Move M c t s s'` — reading, the steps between the rings, scheduling, issue, completion, the
  stores that enter their queue, retirement.
* `Op.move`         — every other step is `Quiet`.
-/

namespace ChampSim
namespace O3

open Lib ChampSim.Core

variable {μ : Type}

/-- The instruction with the outcome of the branch prediction. -/
def predicted (b : Bool) (x : OooModelInstr) : OooModelInstr := { x with branchMispredicted := b }

inductive Move (c : Config) (t : Trace) : Cpu μ → Cpu μ → Prop
  | tick (s : Cpu μ) : Move c t s s.tick
  | read {s : Cpu μ} (env : Env) {x : OooModelInstr} {front : State} {sta : Feed} (b : Bool)
    (hroom : s.ifetchBuffer.occupancy < s.ifetchBuffer.size) (hstall : s.fetchStall = false)
    (hrecord : readRecord c.toConfig t s.toState = some (x, front))
    (hsta : updateSta x.instrId (storeIndices c x).length s.sta = some sta) :
    Move c t s { s with
      filePos := front.filePos
      nextInstr := front.nextInstr
      instrUniqueId := add64 s.instrUniqueId 1
      fetchStall := b
      ifetchBuffer := s.ifetchBuffer.push (predicted b (ifetchEntry (env.front s.cycle) x))
      sta := sta }
  | resume (s : Cpu μ) (env : Env) :
    Move c t s { s with toState := resumeFetch (env.front s.cycle) s.toState }
  | toDecode {s : Cpu μ} (hip : (s.ifetchBuffer.entry s.ifetchBuffer.head).ip ≠ 0)
    (hroom : s.decodeBuffer.occupancy < s.decodeBuffer.size) :
    Move c t s { s with
      decodeBuffer :=
        s.decodeBuffer.push (setEventCycle 0 (s.ifetchBuffer.entry s.ifetchBuffer.head))
      ifetchBuffer := s.ifetchBuffer.pop .empty }
  | toRob {s : Cpu μ} (hip : (s.decodeBuffer.entry s.decodeBuffer.head).ip ≠ 0)
    (hroom : s.rob.occupancy < s.rob.size) :
    Move c t s { s with
      rob := s.rob.push (setEventCycle s.cycle (s.decodeBuffer.entry s.decodeBuffer.head))
      decodeBuffer := s.decodeBuffer.pop .empty }
  | complete {s s' : Cpu μ} {i : Nat} (h : completeExecution i s = some s') : Move c t s s'
  | schedule {s s' : Cpu μ} {i : Nat} (hf : (s.rob.entry i).fetched = .completed)
    (hidle : (s.rob.entry i).scheduled = .idle) (h : doScheduling c i s = some s') : Move c t s s'
  | execute {s : Cpu μ} {b : Half} (hi : (s.rte b).front < robSize)
    (he : (s.rob.entry (s.rte b).front).eventCycle ≤ s.cycle) :
    Move c t s ((doExecution c (s.rte b).front s).popRte b)
  | addStore {s s' : Cpu μ} {i j : Nat} (hi : Candidate s i) (hj : j < c.maxInstrDestinations)
    (hm : (s.rob.entry i).destinationMemory j ≠ 0)
    (ha : (s.rob.entry i).destinationAdded j = false)
    (hbefore : ∀ k < j, (s.rob.entry i).destinationMemory k ≠ 0 →
      (s.rob.entry i).destinationAdded k = true)
    (hroom : s.sq.occupancy < s.sq.size) (hsta : s.sta.front = (s.rob.entry i).instrId)
    (h : addStoreQueue c i j s = some s') : Move c t s s'
  | memoryScheduled {s : Cpu μ} {i : Nat} (hi : Candidate s i)
    (hall : AllAdded c (s.rob.entry i)) : Move c t s (memoryScheduled i s)
  | retire {s : Cpu μ} {mem : μ} (hip : (s.rob.entry s.rob.head).ip ≠ 0)
    (hdone : (s.rob.entry s.rob.head).executed = .completed) :
    Move c t s (releaseHead c { s with mem := mem })

variable {M : Memory μ} {c : Config} {t : Trace} {O : μ → μ → Prop} {s s' : Cpu μ}

/-- Writing the stores of a retiring instruction changes the memory alone. -/
theorem writeStores_mem {x : OooModelInstr} (is : List Nat) :
    ∀ {s : Cpu μ}, writeStores M c x is s = some s' → s' = { s with mem := s'.mem } := by
  induction is with
  | nil =>
    intro s h
    cases h
    rfl
  | cons i is ih =>
    intro s h
    obtain ⟨mem, -, h⟩ := Option.bind_eq_some_iff.mp h
    have hrest := ih h
    exact hrest

theorem modify_push (r : Lib.Ring OooModelInstr) (x : OooModelInstr)
    (f : OooModelInstr → OooModelInstr) : modify (r.push x) r.tail f = r.push (f x) := by
  simp [Core.modify, Lib.Ring.push]

/-- Predicting the instruction just entered at the tail. -/
theorem predict_push (env : CycleEnv) (n : Nat) {front : State} (r : Lib.Ring OooModelInstr)
    {x : OooModelInstr} (hx : x.branchMispredicted = false) (hstall : front.fetchStall = false) :
    ∃ b, (predict env r.tail n { front with ifetchBuffer := r.push x }).2 =
      { front with fetchStall := b, ifetchBuffer := r.push (predicted b x) } := by
  have hkeep : ({ front with ifetchBuffer := r.push x } : State) =
      { front with fetchStall := false, ifetchBuffer := r.push (predicted false x) } := by
    have hself : predicted false x = x := by
      cases x
      cases hx
      rfl
    rw [hself, ← hstall]
  simp only [predict]
  split
  · exact ⟨false, hkeep⟩
  · split
    · split
      · exact ⟨true, by rw [modify_push]; rfl⟩
      · exact ⟨false, hkeep⟩
    · split
      · exact ⟨false, hkeep⟩
      · exact ⟨false, hkeep⟩

theorem readRecord_unflagged {x : OooModelInstr} {front front' : State}
    (h : readRecord c.toConfig t front = some (x, front')) : x.branchMispredicted = false := by
  obtain ⟨r, -, hr⟩ := Option.map_eq_some_iff.mp h
  split at hr
  · cases hr
    rfl
  · cases hr
    rfl

theorem read_move {env : Env} {n : Nat} {x : OooModelInstr} {front : State} {sta : Feed}
    {r : Lib.Ring OooModelInstr} (hroom : s.ifetchBuffer.occupancy < s.ifetchBuffer.size)
    (hstall : s.fetchStall = false)
    (hrecord : readRecord c.toConfig t s.toState = some (x, front))
    (hsta : updateSta x.instrId (storeIndices c x).length s.sta = some sta)
    (hr : addToIfetchBuffer (env.front s.cycle) front.ifetchBuffer x = some r) :
    Move c t s (entered env n r { s with toState := front, sta := sta }).2 := by
  have hfront := readRecord_front hrecord
  have hbuffer : front.ifetchBuffer = s.ifetchBuffer := by rw [hfront]
  have hr := addToRing_some hr
  rw [hbuffer] at hr
  have hflag : (ifetchEntry (env.front s.cycle) x).branchMispredicted = false := by
    have hunflagged := readRecord_unflagged hrecord
    exact hunflagged
  have hfetching : front.fetchStall = false := by rw [hfront]; exact hstall
  obtain ⟨b, hb⟩ := predict_push (env.front s.cycle) n s.ifetchBuffer hflag hfetching
  have hmove : Move c t s _ := .read env b hroom hstall hrecord hsta
  subst hr
  simp only [entered, hbuffer]
  rw [hb]
  rw [hfront] at hmove ⊢
  exact hmove

/-- What `add_store_queue` writes into the instruction. -/
def storeAdded (j sqIndex : Nat) (x : OooModelInstr) : OooModelInstr :=
  { x with
    sqIndex := Function.update x.sqIndex j sqIndex
    destinationAdded := Function.update x.destinationAdded j true }

theorem addStoreQueue_eq {i j : Nat} (h : addStoreQueue c i j s = some s') :
    (s.sq.entry s.sq.tail).virtualAddress = 0 ∧ s' = { s with
      rob := modify s.rob i (storeAdded j s.sq.tail)
      sq := s.sq.push (storeEntry c i j s.cycle (s.rob.entry i) (s.sq.entry s.sq.tail))
      sta := s.sta.pop
      rts := Function.update s.rts .zero ((s.rts .zero).push s.sq.tail) } := by
  unfold addStoreQueue at h
  dsimp only at h
  split at h
  · cases h
  · rename_i hempty
    cases h
    exact ⟨not_not.mp hempty, rfl⟩

/-- What `do_memory_scheduling` writes once all operands are in the queues. -/
def markMemoryScheduled (x : OooModelInstr) : OooModelInstr :=
  { x with
    scheduled := .completed
    executed := if x.executed = .idle then .inflight else x.executed }

theorem memoryScheduled_eq (i : Nat) (s : Cpu μ) :
    memoryScheduled i s = { s with rob := modify s.rob i markMemoryScheduled } := rfl

theorem Call.move (h : Call M c t O s s') : Quiet steady s s' ∨ Move c t s s' := by
  cases h with
  | outside h => exact .inl (.of_eq rfl rfl rfl)
  | operate h => exact .inl (.of_eq rfl rfl rfl)
  | rewind => exact .inl ⟨.refl .., .refl .., .refl .., .refl .., rfl⟩
  | read hroom hstall hrecord hsta hr => exact .inr (read_move hroom hstall hrecord hsta hr)
  | resume env => exact .inr (.resume s env)
  | askItlb h => exact .inl (requestTranslation_quiet h)
  | askL1i h => exact .inl (requestLine_quiet h)
  | toDecode hip hroom hr =>
    rw [addToRing_some hr, modify_push]
    exact .inr (.toDecode hip hroom)
  | toRob hip hroom hr =>
    rw [(addToRob_some hr).1, modify_push]
    exact .inr (.toRob hip hroom)
  | dateDecode env k count index =>
    exact .inl (decodeLoop_quiet (c.decode env) (env.front s.cycle) k count index s)
  | answerInstr hp h => exact .inl (completeInstrFetch_quiet h)
  | answerData hp hs h => exact .inl (quiet_loadSide.completeDataFetch h).of_held
  | complete h => exact .inr (.complete h)
  | schedule hf hidle h => exact .inr (.schedule hf hidle h)
  | execute hi he => exact .inr (.execute hi he)
  | addLoad hi hj hm ha hroom h => exact .inl (addLoadQueue_quiet h)
  | addStore hi hj hm ha hbefore hroom hsta h =>
    exact .inr (.addStore hi hj hm ha hbefore hroom hsta h)
  | memoryScheduled hi hall => exact .inr (.memoryScheduled hi hall)
  | refused h => exact .inl (.of_eq rfl rfl rfl)
  | translateStore hi h => exact .inl ⟨.refl .., .refl .., .refl .., .of_update rfl, rfl⟩
  | executeStore hi h =>
    exact .inl ((quiet_loadSide.executeStore h).of_held.trans (.of_eq rfl rfl rfl))
  | translateLoad hi h => exact .inl (.of_eq rfl rfl rfl)
  | executeLoad hi h => exact .inl (.of_eq rfl rfl rfl)
  | retire hip hdone h =>
    rw [writeStores_mem _ h]
    exact .inr (.retire hip hdone)

theorem Op.move (h : Op M c t O s s') : Quiet steady s s' ∨ Move c t s s' := by
  cases h with
  | tick => exact .inr (.tick s)
  | call h => exact h.move

end O3
end ChampSim
