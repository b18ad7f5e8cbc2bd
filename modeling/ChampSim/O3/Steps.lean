import ChampSim.O3.Quiet
import Mathlib.Logic.Relation

/-!
# ChampSim.O3.Steps

A cycle of the core as a sequence of small steps.

* `Op M c t O s s'` — one call of a function of `O3_CPU`, or one round of a loop, with what the code
  has checked before it. `O` is what may happen to the memory between two cycles.
* `Ops`             — any number of them.
* `Reaches`         — a state that can be met from the start, also between two calls of a cycle.
* `cycle_ops`, `run_reaches` — every cycle of the main loop is such a sequence.
-/

namespace ChampSim
namespace O3

open Lib ChampSim.Core

variable {μ : Type}

/-- The instruction at `i` may enter the queues. -/
structure Candidate (s : Cpu μ) (i : Nat) : Prop where
  memory : (s.rob.entry i).isMemory = true
  ready : (s.rob.entry i).regReady = true
  scheduled : (s.rob.entry i).scheduled = .inflight

/-- All operands of `x` are in the queues. -/
structure AllAdded (c : Config) (x : OooModelInstr) : Prop where
  source : ∀ j < numInstrSources, x.sourceMemory j ≠ 0 → x.sourceAdded j = true
  destination : ∀ j < c.maxInstrDestinations, x.destinationMemory j ≠ 0 →
    x.destinationAdded j = true

/-- One call of a function of the core, or of the caches. -/
inductive Call (M : Memory μ) (c : Config) (t : Trace) (O : μ → μ → Prop) : Cpu μ → Cpu μ → Prop
  | outside {s : Cpu μ} {mem : μ} (h : O s.mem mem) : Call M c t O s { s with mem := mem }
  | operate {s : Cpu μ} {mem : μ} (h : M.operate s.cycle s.mem = some mem) :
    Call M c t O s { s with mem := mem }
  | rewind (s : Cpu μ) : Call M c t O s { s with filePos := 0 }
  | read {s : Cpu μ} {env : Env} {n : Nat} {x : OooModelInstr} {front : State} {sta : Feed}
    {r : Lib.Ring OooModelInstr} (hroom : s.ifetchBuffer.occupancy < s.ifetchBuffer.size)
    (hstall : s.fetchStall = false)
    (hrecord : readRecord c.toConfig t s.toState = some (x, front))
    (hsta : updateSta x.instrId (storeIndices c x).length s.sta = some sta)
    (hr : addToIfetchBuffer (env.front s.cycle) front.ifetchBuffer x = some r) :
    Call M c t O s (entered env n r { s with toState := front, sta := sta }).2
  | resume (s : Cpu μ) (env : Env) :
    Call M c t O s { s with toState := resumeFetch (env.front s.cycle) s.toState }
  | askItlb {s s' : Cpu μ} {i index : Nat} (h : requestTranslation M c i index s = some s') :
    Call M c t O s s'
  | askL1i {s s' : Cpu μ} {index : Nat} (h : requestLine M c index s = some s') : Call M c t O s s'
  | toDecode {s : Cpu μ} {env : Env} {r : Lib.Ring OooModelInstr}
    (hip : (s.ifetchBuffer.entry s.ifetchBuffer.head).ip ≠ 0)
    (hroom : s.decodeBuffer.occupancy < s.decodeBuffer.size)
    (hr : addToDecodeBuffer (env.front s.cycle) s.decodeBuffer
      (s.ifetchBuffer.entry s.ifetchBuffer.head) = some r) :
    Call M c t O s { s with
      decodeBuffer := modify r s.decodeBuffer.tail (setEventCycle 0)
      ifetchBuffer := s.ifetchBuffer.pop .empty }
  | toRob {s : Cpu μ} {env : Env} {r : Lib.Ring OooModelInstr}
    (hip : (s.decodeBuffer.entry s.decodeBuffer.head).ip ≠ 0)
    (hroom : s.rob.occupancy < s.rob.size)
    (hr : addToRob (env.front s.cycle) s.rob (s.decodeBuffer.entry s.decodeBuffer.head) = some r) :
    Call M c t O s { s with
      rob := modify r s.rob.tail (setEventCycle s.cycle)
      decodeBuffer := s.decodeBuffer.pop .empty }
  | dateDecode (s : Cpu μ) (env : Env) (k count index : Nat) : Call M c t O s { s with
      decodeBuffer := decodeLoop (c.decode env) (env.front s.cycle) k count index s.decodeBuffer }
  | answerInstr {s s' : Cpu μ} {server : Server} {p : Packet}
    (hp : M.processed server s.cycle s.mem = some p)
    (h : completeInstrFetch M server p s = some s') : Call M c t O s s'
  | answerData {s s' : Cpu μ} {server : Server} {p : Packet}
    (hp : M.processed server s.cycle s.mem = some p) (hs : server = .dtlb ∨ server = .l1d)
    (h : completeDataFetch M server p s = some s') : Call M c t O s s'
  | complete {s s' : Cpu μ} {i : Nat} (h : completeExecution i s = some s') : Call M c t O s s'
  | schedule {s s' : Cpu μ} {i : Nat} (hf : (s.rob.entry i).fetched = .completed)
    (hidle : (s.rob.entry i).scheduled = .idle) (h : doScheduling c i s = some s') : Call M c t O s s'
  | execute {s : Cpu μ} {b : Half} (hi : (s.rte b).front < robSize)
    (he : (s.rob.entry (s.rte b).front).eventCycle ≤ s.cycle) :
    Call M c t O s ((doExecution c (s.rte b).front s).popRte b)
  | addLoad {s s' : Cpu μ} {i j : Nat} (hi : Candidate s i) (hj : j < numInstrSources)
    (hm : (s.rob.entry i).sourceMemory j ≠ 0) (ha : (s.rob.entry i).sourceAdded j = false)
    (hroom : s.lq.occupancy < s.lq.size) (h : addLoadQueue c i j s = some s') : Call M c t O s s'
  | addStore {s s' : Cpu μ} {i j : Nat} (hi : Candidate s i) (hj : j < c.maxInstrDestinations)
    (hm : (s.rob.entry i).destinationMemory j ≠ 0)
    (ha : (s.rob.entry i).destinationAdded j = false)
    (hbefore : ∀ k < j, (s.rob.entry i).destinationMemory k ≠ 0 →
      (s.rob.entry i).destinationAdded k = true)
    (hroom : s.sq.occupancy < s.sq.size) (hsta : s.sta.front = (s.rob.entry i).instrId)
    (h : addStoreQueue c i j s = some s') : Call M c t O s s'
  | memoryScheduled {s : Cpu μ} {i : Nat} (hi : Candidate s i)
    (hall : AllAdded c (s.rob.entry i)) : Call M c t O s (memoryScheduled i s)
  | refused {s : Cpu μ} {server : Server} {p : Packet} {mem : μ}
    (h : M.addRq server s.cycle p s.mem = some (false, mem)) : Call M c t O s { s with mem := mem }
  | translateStore {s : Cpu μ} {mem : μ} (hi : (s.rts .zero).front < sqSize)
    (h : M.addRq .dtlb s.cycle (storeTranslation c.numCpus c.cpu c.knobCloudsuite
      (s.rts .zero).front (s.sq.entry (s.rts .zero).front)) s.mem = some (true, mem)) :
    Call M c t O s (({ s with mem := mem }.modifySq (s.rts .zero).front fun e =>
      { e with translated := .inflight }).popRts .zero)
  | executeStore {s s' : Cpu μ} (hi : (s.rts .one).front < sqSize)
    (h : executeStore (s.sq.entry (s.rts .one).front).robIndex (s.rts .one).front s = some s') :
    Call M c t O s (s'.popRts .one)
  | translateLoad {s : Cpu μ} {mem : μ} (hi : (s.rtl .zero).front < lqSize)
    (h : M.addRq .dtlb s.cycle (loadTranslation c.numCpus c.cpu c.knobCloudsuite
      (s.rtl .zero).front (s.lq.entry (s.rtl .zero).front)) s.mem = some (true, mem)) :
    Call M c t O s (({ s with mem := mem }.modifyLq (s.rtl .zero).front fun e =>
      { e with translated := .inflight }).popRtl .zero)
  | executeLoad {s : Cpu μ} {mem : μ} (hi : (s.rtl .one).front < lqSize)
    (h : M.addRq .l1d s.cycle (loadData c.numCpus c.cpu (s.rtl .one).front
      (s.lq.entry (s.rtl .one).front)) s.mem = some (true, mem)) :
    Call M c t O s (({ s with mem := mem }.modifyLq (s.rtl .one).front fun e =>
      { e with fetched := .inflight }).popRtl .one)
  | retire {s s' : Cpu μ} (hip : (s.rob.entry s.rob.head).ip ≠ 0)
    (hdone : (s.rob.entry s.rob.head).executed = .completed)
    (h : writeStores M c (s.rob.entry s.rob.head) (storeIndices c (s.rob.entry s.rob.head)) s =
      some s') : Call M c t O s (releaseHead c s')

/-- The clock advances, or a function is called. -/
inductive Op (M : Memory μ) (c : Config) (t : Trace) (O : μ → μ → Prop) : Cpu μ → Cpu μ → Prop
  | tick (s : Cpu μ) : Op M c t O s s.tick
  | call {s s' : Cpu μ} (h : Call M c t O s s') : Op M c t O s s'

section Steps

variable (M : Memory μ) (c : Config) (t : Trace) (O : μ → μ → Prop)

def Calls : Cpu μ → Cpu μ → Prop := Relation.ReflTransGen (Call M c t O)

def Ops : Cpu μ → Cpu μ → Prop := Relation.ReflTransGen (Op M c t O)

def Reaches (s : Cpu μ) : Prop := ∃ mem, Ops M c t O (.init mem) s

end Steps

variable {M : Memory μ} {c : Config} {t : Trace} {O : μ → μ → Prop} {s s' s'' : Cpu μ}

theorem Ops.refl (s : Cpu μ) : Ops M c t O s s := Relation.ReflTransGen.refl

theorem Op.ops (h : Op M c t O s s') : Ops M c t O s s' := .single h

theorem Ops.trans (h : Ops M c t O s s') (h' : Ops M c t O s' s'') : Ops M c t O s s'' :=
  Relation.ReflTransGen.trans h h'

theorem Calls.refl (s : Cpu μ) : Calls M c t O s s := Relation.ReflTransGen.refl

theorem Call.calls (h : Call M c t O s s') : Calls M c t O s s' := .single h

theorem Calls.trans (h : Calls M c t O s s') (h' : Calls M c t O s' s'') : Calls M c t O s s'' :=
  Relation.ReflTransGen.trans h h'

theorem Calls.ops (h : Calls M c t O s s') : Ops M c t O s s' :=
  Relation.ReflTransGen.mono (fun _ _ hcall => Op.call hcall) _ _ h

theorem Reaches.ops (h : Reaches M c t O s) (h' : Ops M c t O s s') : Reaches M c t O s' :=
  h.imp fun _ hm => hm.trans h'

theorem Reaches.op (h : Reaches M c t O s) (h' : Op M c t O s s') : Reaches M c t O s' :=
  h.ops h'.ops

theorem Reaches.call (h : Reaches M c t O s) (h' : Call M c t O s s') : Reaches M c t O s' :=
  h.op (.call h')

/-- The invariant rule of the core. -/
theorem Reaches.invariant {I : Cpu μ → Prop} (hinit : ∀ mem, I (.init mem))
    (hstep : ∀ s s', I s → Op M c t O s s' → I s') (h : Reaches M c t O s) : I s := by
  obtain ⟨mem, h⟩ := h
  refine Relation.ReflTransGen.head_induction_on (motive := fun s' _ => I s' → I s) h id ?_
    (hinit mem)
  exact fun hop _ ih hI => ih (hstep _ _ hI hop)

/-! ## Reading and fetching -/

/-- Reading ends with the branch that sets `fetch_stall`. -/
theorem predict_stall {env : CycleEnv} {index n n' : Nat} {front front' : State}
    (h : predict env index n front = (n', front')) (hstall : front.fetchStall = false) :
    n' = 0 ∨ front'.fetchStall = false := by
  simp only [predict] at h
  split at h
  · cases h
    exact .inr hstall
  · split at h
    · split at h
      · cases h
        exact .inl rfl
      · cases h
        exact .inr hstall
    · split at h
      · cases h
        exact .inl rfl
      · cases h
        exact .inr hstall

/-- A record changes the trace cursor only. -/
theorem readRecord_front {x : OooModelInstr} {front front' : State}
    (h : readRecord c.toConfig t front = some (x, front')) :
    front' = { front with filePos := front.filePos + 1, nextInstr := front'.nextInstr } := by
  obtain ⟨r, -, hr⟩ := Option.map_eq_some_iff.mp h
  split at hr
  · cases hr
    rfl
  · cases hr
    rfl

/-- The buffer that the prediction leaves: one entry more. -/
theorem predict_ifetch {env : CycleEnv} {index n n' : Nat} {front front' : State}
    (h : predict env index n front = (n', front')) :
    front'.ifetchBuffer.occupancy = front.ifetchBuffer.occupancy ∧
      front'.ifetchBuffer.size = front.ifetchBuffer.size := by
  simp only [predict] at h
  split at h
  · cases h
    exact ⟨rfl, rfl⟩
  · split at h
    · split at h
      · cases h
        exact ⟨rfl, rfl⟩
      · cases h
        exact ⟨rfl, rfl⟩
    · split at h
      · cases h
        exact ⟨rfl, rfl⟩
      · cases h
        exact ⟨rfl, rfl⟩

theorem addToRing_some {r r' : Lib.Ring OooModelInstr} {x : OooModelInstr}
    (h : addToRing r x = some r') : r' = r.push x := by
  unfold addToRing at h
  split at h
  · cases h
  · cases h
    rfl

/-- What the reading loop tests after an entry. -/
theorem entered_spec {env : Env} {n n' : Nat} {r : Lib.Ring OooModelInstr}
    (h : entered env n r s = (n', s')) (hstall : s.fetchStall = false) :
    (n' = 0 ∨ s'.fetchStall = false) ∧ s'.ifetchBuffer.occupancy = r.occupancy ∧
      s'.ifetchBuffer.size = r.size := by
  generalize hp : predict (env.front s.cycle) s.ifetchBuffer.tail n
    { s.toState with ifetchBuffer := r } = p
  obtain ⟨k, front⟩ := p
  simp only [entered, hp, Prod.mk.injEq] at h
  obtain ⟨rfl, rfl⟩ := h
  have hend := predict_stall hp hstall
  have hbuffer := predict_ifetch hp
  exact ⟨hend, hbuffer⟩

theorem readLoop_calls (env : Env) (fuel : Nat) :
    ∀ (numReads n : Nat) (s : Cpu μ), s.ifetchBuffer.occupancy < s.ifetchBuffer.size →
      s.fetchStall = false → readLoop c t env fuel numReads n s = some s' → Calls M c t O s s' := by
  induction fuel with
  | zero =>
    intro numReads n s _ _ h
    cases h
  | succ fuel ih =>
    intro numReads n s hroom hstall h
    simp only [readLoop] at h
    split at h
    · exact (Call.rewind s).calls.trans (ih numReads n _ hroom hstall h)
    · rename_i x front hrecord
      obtain ⟨sta, hsta, h⟩ := Option.bind_eq_some_iff.mp h
      have hfront := readRecord_front hrecord
      have hbuffer : front.ifetchBuffer = s.ifetchBuffer := by rw [hfront]
      rw [hbuffer, if_pos hroom] at h
      obtain ⟨r, hr, h⟩ := Option.bind_eq_some_iff.mp h
      have hread : Call M c t O s (entered env n r { s with toState := front, sta := sta }).2 :=
        .read hroom hstall hrecord hsta (hbuffer ▸ hr)
      generalize he : entered env n r { s with toState := front, sta := sta } = q at h hread
      obtain ⟨n', s₁⟩ := q
      have hstall₁ : front.fetchStall = false := by rw [hfront]; exact hstall
      obtain ⟨hend, hocc, hsize⟩ := entered_spec he hstall₁
      rw [addToRing_some hr] at hocc hsize
      split at h
      · cases h
        exact hread.calls
      · rename_i hgo
        refine hread.calls.trans (ih (numReads + 1) n' s₁ ?_ ?_ h)
        · rw [hocc, hsize]
          refine Nat.lt_of_le_of_ne hroom fun heq => hgo (.inr ?_)
          rw [hocc, hsize]
          exact heq
        · exact hend.resolve_left fun h0 => hgo (.inl (by omega))

theorem readFromTrace_calls {env : Env} (hroom : s.ifetchBuffer.occupancy < s.ifetchBuffer.size)
    (hstall : s.fetchStall = false) (h : readFromTrace c t env s = some s') : Calls M c t O s s' :=
  readLoop_calls env _ 0 _ s hroom hstall h

theorem requestLoop_calls (k : Nat) :
    ∀ (index : Nat) (s : Cpu μ), requestLoop M c k index s = some s' →
      Calls M c t O s s' ∧ Quiet held s s' := by
  induction k with
  | zero =>
    intro index s h
    cases h
    exact ⟨.refl _, .refl _⟩
  | succ k ih =>
    intro index s h
    simp only [requestLoop] at h
    split at h
    · cases h
      exact ⟨.refl _, .refl _⟩
    · obtain ⟨s₁, hitlb, h⟩ := Option.bind_eq_some_iff.mp h
      obtain ⟨s₂, hl1i, h⟩ := Option.bind_eq_some_iff.mp h
      have hask : Calls M c t O s s₂ := (Call.askItlb hitlb).calls.trans (Call.askL1i hl1i).calls
      have hquiet : Quiet held s s₂ :=
        (requestTranslation_quiet hitlb).trans (requestLine_quiet hl1i)
      split at h
      · cases h
        exact ⟨hask, hquiet⟩
      · obtain ⟨hops, hq⟩ := ih _ s₂ h
        exact ⟨hask.trans hops, hquiet.trans hq⟩

/-- One of the stages of `Core.Pipeline` ran on the rings of `s`. -/
theorem onFront_eq {f : State → Option State} (h : onFront f s = some s') :
    ∃ front, f s.toState = some front ∧ s' = { s with toState := front } := by
  obtain ⟨front, hf, rfl⟩ := Option.map_eq_some_iff.mp h
  exact ⟨front, hf, rfl⟩

theorem sendToDecode_calls (env : Env) (n : Nat) :
    ∀ (s : Cpu μ) (front : State), sendToDecode (env.front s.cycle) n s.toState = some front →
      Calls M c t O s { s with toState := front } := by
  induction n with
  | zero =>
    intro s front h
    cases h
    exact .refl _
  | succ n ih =>
    intro s front h
    simp only [sendToDecode] at h
    split at h
    · cases h
      exact .refl _
    · rename_i hip
      split at h
      · split at h
        · rename_i hroom
          obtain ⟨r, hr, h⟩ := Option.bind_eq_some_iff.mp h
          exact (Call.toDecode hip hroom hr).calls.trans (ih { s with
            decodeBuffer := modify r s.decodeBuffer.tail (setEventCycle 0)
            ifetchBuffer := s.ifetchBuffer.pop .empty } front h)
        · cases h
          exact .refl _
      · exact ih s front h

theorem fetchInstruction_calls {env : Env} (h : fetchInstruction M c env s = some s') :
    Calls M c t O s s' := by
  have hresume := (Call.resume (M := M) (c := c) (t := t) (O := O) s env).calls
  simp only [fetchInstruction] at h
  split at h
  · cases h
    exact hresume
  · obtain ⟨s₁, hask, h⟩ := Option.bind_eq_some_iff.mp h
    obtain ⟨front, hsend, rfl⟩ := onFront_eq h
    obtain ⟨hops, hquiet⟩ := requestLoop_calls _ _ _ hask
    have hcycle : s₁.cycle = s.cycle := congrArg Rest.cycle hquiet.rest
    rw [← hcycle] at hsend
    exact (hresume.trans hops).trans (sendToDecode_calls env decodeWidth s₁ front hsend)

/-! ## Decode and dispatch -/

theorem addToRob_some {env : CycleEnv} {r r' : Lib.Ring OooModelInstr} {x : OooModelInstr}
    (h : addToRob env r x = some r') :
    r' = r.push (setEventCycle env.currentCoreCycle x) ∧ x.ip ≠ 0 := by
  obtain ⟨r₁, hr, h⟩ := Option.bind_eq_some_iff.mp h
  split at h
  · cases h
  · rename_i hip
    cases h
    exact ⟨addToRing_some hr, hip⟩

theorem dispatchLoop_calls (env : Env) (k : Nat) :
    ∀ (count : Nat) (s : Cpu μ) (front : State),
      dispatchLoop (env.front s.cycle) k count s.toState = some front →
      Calls M c t O s { s with toState := front } := by
  induction k with
  | zero =>
    intro count s front h
    cases h
    exact .refl _
  | succ k ih =>
    intro count s front h
    simp only [dispatchLoop] at h
    split at h
    · cases h
      exact .refl _
    · rename_i hip
      split at h
      · rename_i hc
        have hroom : s.rob.occupancy < s.rob.size := by
          rcases hc with hc | hc
          · exact hc.2
          · exact hc.2.2
        obtain ⟨r, hr, h⟩ := Option.bind_eq_some_iff.mp h
        have hmove := (Call.toRob (M := M) (c := c) (t := t) (O := O) hip hroom hr).calls
        split at h
        · cases h
          exact hmove
        · exact hmove.trans (ih (count + 1) { s with
            rob := modify r s.rob.tail (setEventCycle s.cycle)
            decodeBuffer := s.decodeBuffer.pop .empty } front h)
      · cases h
        exact .refl _

theorem decodeAndDispatch_calls {env : Env}
    (h : onFront (decodeAndDispatch (c.decode env) (env.front s.cycle)) s = some s') :
    Calls M c t O s s' := by
  obtain ⟨front, hd, rfl⟩ := onFront_eq h
  obtain ⟨front, hloop, rfl⟩ := Option.map_eq_some_iff.mp hd
  exact (dispatchLoop_calls env _ 0 s front hloop).trans
    (Call.dateDecode { s with toState := front } env front.decodeBuffer.size 0
      front.decodeBuffer.head).calls

/-! ## Completion -/

theorem answer_calls {server : Server} (h : answer M s server = some s') : Calls M c t O s s' := by
  unfold answer at h
  split at h
  · cases h
    exact .refl _
  · rename_i p hp
    split at h
    · exact (Call.answerInstr hp h).calls
    · rename_i hserver
      refine (Call.answerData hp ?_ h).calls
      cases server <;> simp at hserver ⊢

theorem answers_calls (servers : List Server) :
    ∀ s : Cpu μ, run (answer M) s servers = some s' → Calls M c t O s s' := by
  induction servers with
  | nil =>
    intro s h
    cases h
    exact .refl _
  | cons server servers ih =>
    intro s h
    obtain ⟨s₁, hs, h⟩ := run_cons_inv h
    exact (answer_calls hs).trans (ih s₁ h)

theorem completeAll_calls (is : List Nat) :
    ∀ s : Cpu μ, completeAll is s = some s' → Calls M c t O s s' := by
  induction is with
  | nil =>
    intro s h
    cases h
    exact .refl _
  | cons i is ih =>
    intro s h
    obtain ⟨s₁, hs, h⟩ := Option.bind_eq_some_iff.mp h
    exact (Call.complete hs).calls.trans (ih s₁ h)

theorem updateRob_calls (h : updateRob M s = some s') : Calls M c t O s s' := by
  obtain ⟨s₁, hs, h⟩ := Option.bind_eq_some_iff.mp h
  split at h
  · exact (answers_calls servers s hs).trans (completeAll_calls _ s₁ h)
  · cases h
    exact answers_calls servers s hs

/-! ## Scheduling and execution -/

theorem scheduleLoop_calls (is : List Nat) :
    ∀ (n : Nat) (s : Cpu μ), scheduleLoop c is n s = some s' → Calls M c t O s s' := by
  induction is with
  | nil =>
    intro n s h
    cases h
    exact .refl _
  | cons i is ih =>
    intro n s h
    simp only [scheduleLoop] at h
    split at h
    · cases h
      exact .refl _
    · rename_i hgo
      split at h
      · rename_i hidle
        obtain ⟨s₁, hs, h⟩ := Option.bind_eq_some_iff.mp h
        have hf : (s.rob.entry i).fetched = .completed := by
          by_contra hf
          exact hgo (.inl hf)
        exact (Call.schedule hf hidle hs).calls.trans (ih (n + 1) s₁ h)
      · exact ih (n + 1) s h

theorem scheduleInstruction_calls (h : scheduleInstruction c s = some s') : Calls M c t O s s' := by
  unfold scheduleInstruction at h
  split at h
  · cases h
    exact .refl _
  · exact scheduleLoop_calls _ 0 s h

theorem executeLoop_calls (b : Half) (k : Nat) :
    ∀ (n : Nat) (s : Cpu μ), Calls M c t O s (executeLoop c b k n s).2 := by
  induction k with
  | zero => exact fun n s => .refl s
  | succ k ih =>
    intro n s
    simp only [executeLoop]
    split
    · split
      · rename_i hi
        split
        · rename_i he
          exact (Call.execute hi he).calls.trans (ih (n + 1) _)
        · exact ih n s
      · exact .refl s
    · exact .refl s

theorem executeInstruction_calls (s : Cpu μ) : Calls M c t O s (executeInstruction c s) := by
  unfold executeInstruction
  split
  · exact .refl s
  · exact (executeLoop_calls .zero (robSize - 1) 0 s).trans (executeLoop_calls .one (robSize - 1)
      (executeLoop c .zero (robSize - 1) 0 s).1 (executeLoop c .zero (robSize - 1) 0 s).2)

/-! ## The queues -/

/-- The loads among `js` were entered or counted as missing. -/
structure LoadsAdded (M : Memory μ) (c : Config) (t : Trace) (O : μ → μ → Prop) (i : Nat)
    (js : List Nat) (n n' : Nat) (s s' : Cpu μ) : Prop where
  calls : Calls M c t O s s'
  quiet : Quiet steady s s'
  le : n ≤ n'
  keeps : ∀ j, (s.rob.entry i).sourceAdded j = true → (s'.rob.entry i).sourceAdded j = true
  all : n' = n → ∀ j ∈ js, (s.rob.entry i).sourceMemory j ≠ 0 →
    (s'.rob.entry i).sourceAdded j = true

theorem Quiet.candidate {i : Nat} (h : Quiet steady s s') (hi : Candidate s i) :
    Candidate s' i := by
  have hmemory := congrArg OooModelInstr.isMemory (h.rob.entry i)
  have hready := congrArg OooModelInstr.regReady (h.rob.entry i)
  have hscheduled := congrArg OooModelInstr.scheduled (h.rob.entry i)
  exact ⟨hmemory.trans hi.memory, hready.trans hi.ready, hscheduled.trans hi.scheduled⟩

theorem Quiet.sourceMemory (h : Quiet steady s s') (i : Nat) :
    (s'.rob.entry i).sourceMemory = (s.rob.entry i).sourceMemory := by
  have hsource := congrArg OooModelInstr.sourceMemory (h.rob.entry i)
  exact hsource

theorem addLoads_calls {i : Nat} (js : List Nat) :
    ∀ (n n' : Nat) (s : Cpu μ), (∀ j ∈ js, j < numInstrSources) → Candidate s i →
      addLoads c i js n s = some (n', s') → LoadsAdded M c t O i js n n' s s' := by
  induction js with
  | nil =>
    intro n n' s _ _ h
    cases h
    exact ⟨.refl _, .refl _, le_rfl, fun _ => id, fun _ _ hj => nomatch hj⟩
  | cons j js ih =>
    intro n n' s hjs hi h
    obtain ⟨hj, hjs⟩ := List.forall_mem_cons.mp hjs
    simp only [addLoads] at h
    split at h
    · rename_i hskip
      have hrest := ih n n' s hjs hi h
      refine ⟨hrest.calls, hrest.quiet, hrest.le, hrest.keeps, fun hn => ?_⟩
      refine List.forall_mem_cons.mpr ⟨fun hm => ?_, hrest.all hn⟩
      exact hrest.keeps j (hskip.resolve_left hm)
    · rename_i hskip
      obtain ⟨hm, ha⟩ := not_or.mp hskip
      split at h
      · rename_i hroom
        obtain ⟨s₁, hs, h⟩ := Option.bind_eq_some_iff.mp h
        have hquiet := addLoadQueue_quiet hs
        have hadded := addLoadQueue_added hs
        have hrest := ih n n' s₁ hjs (hquiet.candidate hi) h
        have hkeeps : ∀ k, (s.rob.entry i).sourceAdded k = true →
            (s₁.rob.entry i).sourceAdded k = true := by
          intro k hk
          rw [hadded]
          by_cases hkj : k = j
          · rw [hkj, Function.update_self]
          · rw [Function.update_of_ne hkj, hk]
        have ha := Bool.eq_false_of_not_eq_true ha
        refine ⟨(Call.addLoad hi hj hm ha hroom hs).calls.trans hrest.calls,
          hquiet.trans hrest.quiet, hrest.le, fun k hk => hrest.keeps k (hkeeps k hk), fun hn => ?_⟩
        refine List.forall_mem_cons.mpr ⟨fun _ => hrest.keeps j ?_, ?_⟩
        · rw [hadded, Function.update_self]
        · have hall := hrest.all hn
          rwa [hquiet.sourceMemory] at hall
      · have hrest := ih (n + 1) n' s hjs hi h
        have hle := hrest.le
        exact ⟨hrest.calls, hrest.quiet, by omega, hrest.keeps, fun hn => by omega⟩

def unstored (x : OooModelInstr) : OooModelInstr :=
  { x with sqIndex := fun _ => uint32Max, destinationAdded := fun _ => false }

/-- The stores among the destinations `a .. a + k - 1` were entered or counted as missing. -/
structure StoresAdded (M : Memory μ) (c : Config) (t : Trace) (O : μ → μ → Prop) (i a k : Nat)
    (n n' : Nat) (s s' : Cpu μ) : Prop where
  calls : Calls M c t O s s'
  rob : Ring.Alike unstored s.rob s'.rob
  le : n ≤ n'
  keeps : ∀ j, (s.rob.entry i).destinationAdded j = true →
    (s'.rob.entry i).destinationAdded j = true
  all : n' = n → ∀ j, a ≤ j → j < a + k → (s.rob.entry i).destinationMemory j ≠ 0 →
    (s'.rob.entry i).destinationAdded j = true

theorem candidate_of_unstored {i : Nat} (h : Ring.Alike unstored s.rob s'.rob)
    (hi : Candidate s i) : Candidate s' i := by
  have hmemory := congrArg OooModelInstr.isMemory (h.entry i)
  have hready := congrArg OooModelInstr.regReady (h.entry i)
  have hscheduled := congrArg OooModelInstr.scheduled (h.entry i)
  exact ⟨hmemory.trans hi.memory, hready.trans hi.ready, hscheduled.trans hi.scheduled⟩

theorem addStoreQueue_some {i j : Nat} (h : addStoreQueue c i j s = some s') :
    Ring.Alike unstored s.rob s'.rob ∧
      (s'.rob.entry i).destinationAdded =
        Function.update (s.rob.entry i).destinationAdded j true := by
  unfold addStoreQueue at h
  dsimp only at h
  split at h
  · cases h
  · cases h
    exact ⟨.of_update rfl, by simp [Cpu.modifyRob, Cpu.pushRts, Core.modify]⟩

theorem addStores_calls {i : Nat} (k : Nat) :
    ∀ (a n n' : Nat) (s : Cpu μ), a + k ≤ c.maxInstrDestinations → Candidate s i →
      ((∀ j < a, (s.rob.entry i).destinationMemory j ≠ 0 →
          (s.rob.entry i).destinationAdded j = true) ∨
        ¬ (s.sq.occupancy < s.sq.size ∧ s.sta.front = (s.rob.entry i).instrId)) →
      addStores c i (List.range' a k) n s = some (n', s') →
      StoresAdded M c t O i a k n n' s s' := by
  induction k with
  | zero =>
    intro a n n' s _ _ _ h
    cases h
    exact ⟨.refl _, .refl .., le_rfl, fun _ => id, fun _ j hj hj' => by omega⟩
  | succ k ih =>
    intro a n n' s hle hi hbefore h
    simp only [List.range'_succ, addStores] at h
    split at h
    · rename_i hskip
      have hbefore' : (∀ j < a + 1, (s.rob.entry i).destinationMemory j ≠ 0 →
          (s.rob.entry i).destinationAdded j = true) ∨
          ¬ (s.sq.occupancy < s.sq.size ∧ s.sta.front = (s.rob.entry i).instrId) := by
        refine hbefore.imp (fun hb j hj hm => ?_) id
        rcases Nat.lt_succ_iff_lt_or_eq.mp hj with hj | rfl
        · exact hb j hj hm
        · exact hskip.resolve_left hm
      have hrest := ih (a + 1) n n' s (by omega) hi hbefore' h
      refine ⟨hrest.calls, hrest.rob, hrest.le, hrest.keeps, fun hn j haj hj hm => ?_⟩
      by_cases hja : j = a
      · subst hja
        exact hrest.keeps j (hskip.resolve_left hm)
      · exact hrest.all hn j (by omega) (by omega) hm
    · rename_i hskip
      obtain ⟨hm, ha⟩ := not_or.mp hskip
      split at h
      · rename_i hroom
        obtain ⟨s₁, hs, h⟩ := Option.bind_eq_some_iff.mp h
        obtain ⟨hrob, hadded⟩ := addStoreQueue_some hs
        have hb := hbefore.resolve_right (not_not_intro hroom)
        have hmemory : (s₁.rob.entry i).destinationMemory = (s.rob.entry i).destinationMemory := by
          have hdest := congrArg OooModelInstr.destinationMemory (hrob.entry i)
          exact hdest
        have hkeeps : ∀ j, (s.rob.entry i).destinationAdded j = true →
            (s₁.rob.entry i).destinationAdded j = true := by
          intro j hj
          rw [hadded]
          by_cases hja : j = a
          · rw [hja, Function.update_self]
          · rw [Function.update_of_ne hja, hj]
        have hself : (s₁.rob.entry i).destinationAdded a = true := by
          rw [hadded, Function.update_self]
        have hrest := ih (a + 1) n n' s₁ (by omega) (candidate_of_unstored hrob hi)
          (.inl fun j hj hmj => by
            rcases Nat.lt_succ_iff_lt_or_eq.mp hj with hj | rfl
            · exact hkeeps j (hb j hj (hmemory ▸ hmj))
            · exact hself) h
        have hadd : Call M c t O s s₁ := .addStore hi (by omega) hm
          (Bool.eq_false_of_not_eq_true ha) hb hroom.1 hroom.2 hs
        refine ⟨hadd.calls.trans hrest.calls, hrob.trans hrest.rob, hrest.le,
          fun j hj => hrest.keeps j (hkeeps j hj), fun hn j haj hj hmj => ?_⟩
        by_cases hja : j = a
        · subst hja
          exact hrest.keeps j hself
        · exact hrest.all hn j (by omega) (by omega) (hmemory ▸ hmj)
      · rename_i hroom
        have hrest := ih (a + 1) (n + 1) n' s (by omega) hi (.inr hroom) h
        have hlen := hrest.le
        exact ⟨hrest.calls, hrest.rob, by omega, hrest.keeps, fun hn => by omega⟩

theorem doMemoryScheduling_calls {i : Nat} (hi : Candidate s i)
    (h : doMemoryScheduling c i s = some s') : Calls M c t O s s' := by
  obtain ⟨⟨n, s₂⟩, hcheck, rfl⟩ := Option.map_eq_some_iff.mp h
  obtain ⟨⟨n₁, s₁⟩, hloads, hstores⟩ := Option.bind_eq_some_iff.mp hcheck
  have hl := addLoads_calls (M := M) (t := t) (O := O) _ 0 n₁ s
    (fun j hj => List.mem_range.mp hj) hi hloads
  rw [List.range_eq_range'] at hstores
  have hst := addStores_calls (M := M) (t := t) (O := O) c.maxInstrDestinations 0 n₁ n s₁
    (by omega) (hl.quiet.candidate hi) (.inl fun j hj => by omega) hstores
  have hops := hl.calls.trans hst.calls
  show Calls M c t O s (if n = 0 then memoryScheduled i s₂ else s₂)
  split
  · rename_i hn
    have hle := hst.le
    refine hops.trans (Call.memoryScheduled (candidate_of_unstored hst.rob (hl.quiet.candidate hi))
      ⟨fun j hj hm => ?_, fun j hj hm => ?_⟩).calls
    · have hsource := congrArg OooModelInstr.sourceMemory (hst.rob.entry i)
      have hadded := congrArg OooModelInstr.sourceAdded (hst.rob.entry i)
      refine (congrFun hadded j).trans (hl.all (by omega) j (List.mem_range.mpr hj) ?_)
      rw [← hl.quiet.sourceMemory]
      exact (congrFun hsource j) ▸ hm
    · have hdest := congrArg OooModelInstr.destinationMemory (hst.rob.entry i)
      exact hst.all (by omega) j (by omega) (by omega) ((congrFun hdest j) ▸ hm)
  · exact hops

theorem memoryLoop_calls (is : List Nat) :
    ∀ (n n' : Nat) (s : Cpu μ), memoryLoop c is n s = some (n', s') → Calls M c t O s s' := by
  induction is with
  | nil =>
    intro n n' s h
    cases h
    exact .refl _
  | cons i is ih =>
    intro n n' s h
    simp only [memoryLoop] at h
    split at h
    · exact ih n n' s h
    · rename_i hmemory
      split at h
      · cases h
        exact .refl _
      · split at h
        · rename_i hready
          obtain ⟨s₁, hs, h⟩ := Option.bind_eq_some_iff.mp h
          have hi : Candidate s i := ⟨by simpa using hmemory, hready.1, hready.2⟩
          exact (doMemoryScheduling_calls hi hs).trans (ih (n + 1) n' s₁ h)
        · exact ih n n' s h

theorem scheduleMemoryInstruction_calls (h : scheduleMemoryInstruction c s = some s') :
    Calls M c t O s s' := by
  unfold scheduleMemoryInstruction at h
  split at h
  · cases h
    exact .refl _
  · obtain ⟨⟨n, s₁⟩, hfirst, h⟩ := Option.bind_eq_some_iff.mp h
    obtain ⟨⟨n₂, s₂⟩, hsecond, rfl⟩ := Option.map_eq_some_iff.mp h
    exact (memoryLoop_calls _ 0 n s hfirst).trans (memoryLoop_calls _ n n₂ s₁ hsecond)

theorem translateStores_calls (k : Nat) :
    ∀ (n n' : Nat) (s : Cpu μ), translateStores M c k n s = some (n', s') → Calls M c t O s s' := by
  induction k with
  | zero =>
    intro n n' s h
    cases h
    exact .refl _
  | succ k ih =>
    intro n n' s h
    simp only [translateStores] at h
    split at h
    · split at h
      · rename_i hi
        split at h
        · obtain ⟨⟨accepted, mem⟩, hm, h⟩ := Option.bind_eq_some_iff.mp h
          cases accepted with
          | true => exact (Call.translateStore hi hm).calls.trans (ih (n + 1) n' _ h)
          | false =>
            cases h
            exact (Call.refused hm).calls
        · exact ih n n' s h
      · cases h
        exact .refl _
    · cases h
      exact .refl _

theorem executeStores_calls (k : Nat) :
    ∀ (n n' : Nat) (s : Cpu μ), executeStores k n s = some (n', s') → Calls M c t O s s' := by
  induction k with
  | zero =>
    intro n n' s h
    cases h
    exact .refl _
  | succ k ih =>
    intro n n' s h
    simp only [executeStores] at h
    split at h
    · split at h
      · rename_i hi
        split at h
        · obtain ⟨s₁, hs, h⟩ := Option.bind_eq_some_iff.mp h
          exact (Call.executeStore hi hs).calls.trans (ih (n + 1) n' _ h)
        · exact ih n n' s h
      · cases h
        exact .refl _
    · cases h
      exact .refl _

theorem translateLoads_calls (k : Nat) :
    ∀ (n n' : Nat) (s : Cpu μ), translateLoads M c k n s = some (n', s') → Calls M c t O s s' := by
  induction k with
  | zero =>
    intro n n' s h
    cases h
    exact .refl _
  | succ k ih =>
    intro n n' s h
    simp only [translateLoads] at h
    split at h
    · split at h
      · rename_i hi
        split at h
        · obtain ⟨⟨accepted, mem⟩, hm, h⟩ := Option.bind_eq_some_iff.mp h
          cases accepted with
          | true => exact (Call.translateLoad hi hm).calls.trans (ih (n + 1) n' _ h)
          | false =>
            cases h
            exact (Call.refused hm).calls
        · exact ih n n' s h
      · cases h
        exact .refl _
    · cases h
      exact .refl _

theorem executeLoads_calls (k : Nat) :
    ∀ (n n' : Nat) (s : Cpu μ), executeLoads M c k n s = some (n', s') → Calls M c t O s s' := by
  induction k with
  | zero =>
    intro n n' s h
    cases h
    exact .refl _
  | succ k ih =>
    intro n n' s h
    simp only [executeLoads] at h
    split at h
    · split at h
      · rename_i hi
        split at h
        · obtain ⟨⟨accepted, s₁⟩, hload, h⟩ := Option.bind_eq_some_iff.mp h
          obtain ⟨⟨taken, mem⟩, hm, heq⟩ := Option.map_eq_some_iff.mp hload
          cases taken with
          | true =>
            cases heq
            exact (Call.executeLoad hi hm).calls.trans (ih (n + 1) n' _ h)
          | false =>
            cases heq
            exact (Call.refused hm).calls.trans (ih n n' _ h)
        · exact ih n n' s h
      · cases h
        exact .refl _
    · cases h
      exact .refl _

theorem executeMemoryInstruction_calls (h : executeMemoryInstruction M c s = some s') :
    Calls M c t O s s' := by
  obtain ⟨s₄, hlsq, h⟩ := Option.bind_eq_some_iff.mp h
  obtain ⟨mem, hoperate, rfl⟩ := Option.map_eq_some_iff.mp h
  obtain ⟨⟨n₁, s₁⟩, h₁, h⟩ := Option.bind_eq_some_iff.mp hlsq
  obtain ⟨⟨n₂, s₂⟩, h₂, h⟩ := Option.bind_eq_some_iff.mp h
  obtain ⟨⟨n₃, s₃⟩, h₃, h⟩ := Option.bind_eq_some_iff.mp h
  obtain ⟨⟨n₄, s₄⟩, h₄, rfl⟩ := Option.map_eq_some_iff.mp h
  have hstores := (translateStores_calls (M := M) (c := c) (t := t) (O := O) _ _ _ s h₁).trans
    (executeStores_calls _ _ _ s₁ h₂)
  have hloads := (translateLoads_calls (M := M) (c := c) (t := t) (O := O) _ _ _ s₂ h₃).trans
    (executeLoads_calls _ _ _ s₃ h₄)
  exact (hstores.trans hloads).trans (Call.operate hoperate).calls

/-! ## Cycles -/

theorem retireLoop_calls (n : Nat) :
    ∀ s : Cpu μ, retireLoop M c n s = some s' → Calls M c t O s s' := by
  induction n with
  | zero =>
    intro s h
    cases h
    exact .refl _
  | succ n ih =>
    intro s h
    simp only [retireLoop] at h
    split at h
    · cases h
      exact .refl _
    · rename_i hip
      split at h
      · cases h
        exact .refl _
      · rename_i hdone
        split at h
        · cases h
          exact .refl _
        · obtain ⟨s₁, hs, h⟩ := Option.bind_eq_some_iff.mp h
          exact (Call.retire hip (not_not.mp hdone) hs).calls.trans (ih _ h)

theorem perform_calls {env : Env} {phase : Phase} (h : phase.perform M c t env s = some s') :
    Calls M c t O s s' := by
  cases phase with
  | retire =>
    simp only [Phase.perform] at h
    split at h
    · exact retireLoop_calls _ s h
    · cases h
      exact .refl _
  | update => exact updateRob_calls h
  | schedule =>
    simp only [Phase.perform] at h
    split at h
    · exact scheduleInstruction_calls h
    · cases h
      exact .refl _
  | execute =>
    cases h
    exact executeInstruction_calls s
  | scheduleMemory => exact scheduleMemoryInstruction_calls h
  | executeMemory => exact executeMemoryInstruction_calls h
  | decode =>
    simp only [Phase.perform] at h
    split at h
    · exact decodeAndDispatch_calls h
    · cases h
      exact .refl _
  | fetch => exact fetchInstruction_calls h
  | read =>
    simp only [Phase.perform] at h
    split at h
    · rename_i hread
      exact readFromTrace_calls hread.1 (by simpa using hread.2) h
    · cases h
      exact .refl _

theorem phases_calls {env : Env} (l : List Phase) :
    ∀ s : Cpu μ, run (Phase.perform M c t env) s l = some s' → Calls M c t O s s' := by
  induction l with
  | nil =>
    intro s h
    cases h
    exact .refl _
  | cons phase l ih =>
    intro s h
    obtain ⟨s₁, hs, h⟩ := run_cons_inv h
    exact (perform_calls hs).trans (ih s₁ h)

/-- What happens outside the core between two of its cycles is allowed by `O`. -/
def Turn.Within (O : μ → μ → Prop) (turn : Turn μ) : Prop :=
  ∀ mem mem', turn.outside mem = some mem' → O mem mem'

theorem cycle_ops {turn : Turn μ} (hO : turn.Within O) (h : cycle M c t s turn = some s') :
    Ops M c t O s s' := by
  obtain ⟨mem, hmem, h⟩ := Option.bind_eq_some_iff.mp h
  have hstart := (Call.outside (M := M) (c := c) (t := t) (hO _ _ hmem)).calls.ops.trans
    (Op.tick { s with mem := mem }).ops
  dsimp only at h
  split at h
  · cases h
    exact hstart
  · exact hstart.trans (phases_calls phases _ h).ops

/-- Every state of a run of the main loop is reached by calls of the core's functions. -/
theorem run_reaches {turns : List (Turn μ)} {mem : μ} (hO : ∀ turn ∈ turns, turn.Within O)
    (h : run (cycle M c t) (.init mem) turns = some s) : Reaches M c t O s := by
  refine run_invariant (I := Reaches M c t O) (P := fun _ turn => turn.Within O)
    (fun s turn s' hI hturn hs => hI.ops (cycle_ops hturn hs)) ⟨mem, .refl _⟩
    (along_of_forall hO _) h

/-! ## A memory to run with -/

/-- Takes every request and answers in order, from the next call on. -/
def echo : Memory (Server → List Packet) where
  addRq := fun server _ p mem => some (true, Function.update mem server (mem server ++ [p]))
  addWq := fun _ _ mem => some mem
  wqOccupancy := fun _ => 0
  wqSize := 64
  processed := fun server _ mem => (mem server).head?
  removeProcessed := fun server mem => some (Function.update mem server (mem server).tail)
  operate := fun _ mem => some mem

def echoConfig : Config where
  knobCloudsuite := false
  cpu := 0
  schedulingLatency := 0
  decodeLatency := 0
  execLatency := 0
  numCpus := 1

def echoTurn : Turn (Server → List Packet) where
  stalled := false
  warmupComplete := true
  decodeLatency := 2
  vaToPa := fun x => x.ip
  predictBranch := fun _ => 0
  outside := some

/-- `n` cycles over a trace of one record. -/
def echoRun (r : InputInstr) (n : Nat) : Option (Cpu (Server → List Packet)) :=
  run (cycle echo echoConfig ⟨[r], by simp⟩) (.init fun _ => []) (List.replicate n echoTurn)

theorem echoTurn_within {n : Nat} {turn : Turn (Server → List Packet)}
    (h : turn ∈ List.replicate n echoTurn) : turn.Within Eq := by
  obtain rfl := List.eq_of_mem_replicate h
  exact fun mem mem' hmem => Option.some.inj hmem

theorem echo_reaches {t : Trace} {n : Nat} {s : Cpu (Server → List Packet)}
    (h : run (cycle echo echoConfig t) (.init fun _ => []) (List.replicate n echoTurn) = some s) :
    Reaches echo echoConfig t Eq s :=
  run_reaches (fun _ hturn => echoTurn_within hturn) h

theorem echoRun_reaches {r : InputInstr} {n : Nat} {s : Cpu (Server → List Packet)}
    (h : echoRun r n = some s) : Reaches echo echoConfig ⟨[r], by simp⟩ Eq s :=
  echo_reaches h

end O3
end ChampSim
