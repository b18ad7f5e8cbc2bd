import ChampSim.O3.Cycle

/-!
# ChampSim.O3.Quiet

What the load side of the core, the TLBs and the caches leave alone.

* `held`, `steady`       — an instruction without the fields that only loads and answers write.
* `unfetched`, `undated`, `untranslated` — the same for the two front rings and the store queue.
* `Quiet π s s'`         — `s'` is `s` up to such fields, the load queue, the ready lists of the
  queues and the memory.
* `LoadSide R`           — a relation that contains each write of the load side; one lemma for each of
  its functions.
-/

namespace ChampSim
namespace O3

open Lib ChampSim.Core

def held (x : OooModelInstr) : OooModelInstr :=
  { x with
    eventCycle := 0
    numMemOps := 0
    memoryInstrsDependOnMe := ∅
    isProducer := false
    lqIndex := fun _ => uint32Max }

def steady (x : OooModelInstr) : OooModelInstr := { held x with sourceAdded := fun _ => false }

def unfetched (x : OooModelInstr) : OooModelInstr :=
  { x with translated := .idle, fetched := .idle, instructionPa := 0 }

def undated (x : OooModelInstr) : OooModelInstr := { x with eventCycle := 0 }

def untranslated (e : LsqEntry) : LsqEntry :=
  { e with translated := .idle, fetched := .idle, physicalAddress := 0, eventCycle := 0 }

variable {μ : Type}

/-- The fields outside the rings that the load side does not write. -/
structure Rest where
  instrUniqueId : Nat
  fetchStall : Bool
  fetchResumeCycle : Nat
  retired : List Nat
  cycle : Nat
  sta : Feed
  rte : Half → Feed
  inflightRegExecutions : Nat
  completedExecutions : Nat

def Cpu.rest (s : Cpu μ) : Rest where
  instrUniqueId := s.instrUniqueId
  fetchStall := s.fetchStall
  fetchResumeCycle := s.fetchResumeCycle
  retired := s.retired
  cycle := s.cycle
  sta := s.sta
  rte := s.rte
  inflightRegExecutions := s.inflightRegExecutions
  completedExecutions := s.completedExecutions

structure Quiet (π : OooModelInstr → OooModelInstr) (s s' : Cpu μ) : Prop where
  rob : Ring.Alike π s.rob s'.rob
  decode : Ring.Alike undated s.decodeBuffer s'.decodeBuffer
  ifetch : Ring.Alike unfetched s.ifetchBuffer s'.ifetchBuffer
  sq : Ring.Alike untranslated s.sq s'.sq
  rest : s'.rest = s.rest

section Basic

variable {π : OooModelInstr → OooModelInstr} {s s' s'' : Cpu μ}

theorem Quiet.refl (s : Cpu μ) : Quiet π s s := ⟨.refl .., .refl .., .refl .., .refl .., rfl⟩

theorem Quiet.trans (h : Quiet π s s') (h' : Quiet π s' s'') : Quiet π s s'' where
  rob := h.rob.trans h'.rob
  decode := h.decode.trans h'.decode
  ifetch := h.ifetch.trans h'.ifetch
  sq := h.sq.trans h'.sq
  rest := h'.rest.trans h.rest

theorem Quiet.of_held (h : Quiet held s s') : Quiet steady s s' where
  rob := h.rob.comp fun x : OooModelInstr =>
    ({ x with sourceAdded := fun _ => false } : OooModelInstr)
  decode := h.decode
  ifetch := h.ifetch
  sq := h.sq
  rest := h.rest

/-- Only the memory, the load queue and the ready lists of the queues. -/
theorem Quiet.of_eq (hstate : s'.toState = s.toState) (hsq : s'.sq = s.sq)
    (hrest : s'.rest = s.rest) : Quiet π s s' := by
  obtain ⟨hi, hd, hr⟩ : s'.ifetchBuffer = s.ifetchBuffer ∧ s'.decodeBuffer = s.decodeBuffer ∧
      s'.rob = s.rob := by simp [hstate]
  exact ⟨hr ▸ .refl .., hd ▸ .refl .., hi ▸ .refl .., hsq ▸ .refl .., hrest⟩

theorem quiet_modifyRob (s : Cpu μ) (i : Nat) {f : OooModelInstr → OooModelInstr}
    (hf : ∀ x, π (f x) = π x) : Quiet π s (s.modifyRob i f) :=
  ⟨.of_update (hf _), .refl .., .refl .., .refl .., rfl⟩

theorem quiet_modifyLq (s : Cpu μ) (i : Nat) (f : LsqEntry → LsqEntry) :
    Quiet π s (s.modifyLq i f) := .of_eq rfl rfl rfl

theorem quiet_modifySq (s : Cpu μ) (i : Nat) {f : LsqEntry → LsqEntry}
    (hf : ∀ e, untranslated (f e) = untranslated e) : Quiet π s (s.modifySq i f) :=
  ⟨.refl .., .refl .., .refl .., .of_update (hf _), rfl⟩

end Basic

/-! ## The load side -/

/-- What `execute_store` reads of a load. -/
def loadKey (e : LsqEntry) : Nat × Nat × Nat × Nat :=
  (e.virtualAddress, e.producerId, e.robIndex, e.dataIndex)

/-- A relation that no single write of the load side leaves, so that none of its functions does. -/
structure LoadSide (R : Cpu μ → Cpu μ → Prop) : Prop where
  refl : ∀ s, R s s
  trans : ∀ s s' s'', R s s' → R s' s'' → R s s''
  /-- The memory, the ready lists of the queues, `inflight_mem_executions`. -/
  beside : ∀ s s', s'.toState = s.toState → s'.lq = s.lq → s'.sq = s.sq → s'.rest = s.rest → R s s'
  finish : ∀ s i n, R s (s.modifyRob i fun x =>
    { x with numMemOps := x.numMemOps - 1, eventCycle := n })
  date : ∀ s i n, R s (s.modifyRob i fun x => { x with eventCycle := n })
  depend : ∀ s i d, R s (s.modifyRob i fun x =>
    { x with memoryInstrsDependOnMe := insert d x.memoryInstrsDependOnMe })
  load : ∀ s i f, (∀ e, loadKey (f e) = loadKey e) → R s (s.modifyLq i f)
  release : ∀ s i, R s (releaseLoadQueue i s)
  store : ∀ s i f, (∀ e, untranslated (f e) = untranslated e) → R s (s.modifySq i f)

namespace LoadSide

variable {R : Cpu μ → Cpu μ → Prop} {s s' : Cpu μ}

theorem finishMemOp (hR : LoadSide R) {i n : Nat} (h : finishMemOp i n s = some s') :
    R s s' := by
  simp only [O3.finishMemOp] at h
  split at h
  · cases h
  · split at h
    · cases h
      exact hR.trans _ _ _ (hR.finish s i n) (hR.beside _ _ rfl rfl rfl rfl)
    · cases h
      exact hR.finish s i n

/-- A load is dated and leaves the queue. -/
theorem served (hR : LoadSide R) {lq i n : Nat} {f : LsqEntry → LsqEntry}
    (hf : ∀ e, loadKey (f e) = loadKey e) (h : O3.finishMemOp i n (s.modifyLq lq f) = some s') :
    R s (releaseLoadQueue lq s') :=
  hR.trans _ _ _ (hR.trans _ _ _ (hR.load s lq f hf) (hR.finishMemOp h)) (hR.release s' lq)

theorem forwardLoop (hR : LoadSide R) (i lq : Nat) (is : List Nat) :
    ∀ s : Cpu μ, R s (forwardLoop i lq is s).2 := by
  induction is with
  | nil => exact fun s => hR.refl s
  | cons a is ih =>
    intro s
    simp only [O3.forwardLoop]
    split
    · split
      · exact hR.refl s
      · split
        · refine hR.trans _ _ _ ?_ (ih _)
          exact hR.load s lq _ fun _ => rfl
        · exact ih s
    · exact ih s

theorem forwardFrom (hR : LoadSide R) {lq sq : Nat} (h : forwardFrom lq sq s = some s') :
    R s s' := by
  simp only [O3.forwardFrom] at h
  split at h
  · obtain ⟨t, ht, rfl⟩ := Option.map_eq_some_iff.mp h
    exact hR.served (fun _ => by rfl) ht
  · cases h
    exact hR.refl s

theorem resolveLoad (hR : LoadSide R) {i sq d j lq : Nat}
    (h : resolveLoad i sq d j lq s = some s') : R s s' := by
  simp only [O3.resolveLoad] at h
  split at h
  · cases h
  · split at h
    · cases h
    · obtain ⟨t, ht, rfl⟩ := Option.map_eq_some_iff.mp h
      have hserved : R s (releaseLoadQueue lq t) := hR.served (fun _ => by rfl) ht
      split
      · exact hR.trans _ _ _ hserved (hR.depend _ i d)
      · exact hserved

theorem resolveSources (hR : LoadSide R) (i sq d : Nat) (js : List Nat) :
    ∀ s : Cpu μ, resolveSources i sq d js s = some s' → R s s' := by
  induction js with
  | nil =>
    intro s h
    cases h
    exact hR.refl _
  | cons j js ih =>
    intro s h
    simp only [O3.resolveSources] at h
    split at h
    · obtain ⟨t, ht, h⟩ := Option.bind_eq_some_iff.mp h
      exact hR.trans _ _ _ (hR.resolveLoad ht) (ih t h)
    · exact ih s h

theorem resolveDependents (hR : LoadSide R) (i sq : Nat) (ds : List Nat) :
    ∀ s : Cpu μ, resolveDependents i sq ds s = some s' → R s s' := by
  induction ds with
  | nil =>
    intro s h
    cases h
    exact hR.refl _
  | cons d ds ih =>
    intro s h
    obtain ⟨t, ht, h⟩ := Option.bind_eq_some_iff.mp h
    exact hR.trans _ _ _ (hR.resolveSources i sq d _ s ht) (ih t h)

theorem executeStore (hR : LoadSide R) {i sq : Nat} (h : executeStore i sq s = some s') :
    R s s' := by
  obtain ⟨t, ht, h⟩ := Option.bind_eq_some_iff.mp h
  have hfinish := hR.trans _ _ _ (hR.store s sq (fun e =>
    { e with fetched := .completed, eventCycle := s.cycle }) fun _ => rfl) (hR.finishMemOp ht)
  dsimp only at h
  split at h
  · exact hR.trans _ _ _ hfinish (hR.resolveDependents i sq _ t h)
  · cases h
    exact hfinish

theorem foldl {α : Type} {f : Cpu μ → α → Cpu μ} (hR : LoadSide R) (hf : ∀ s a, R s (f s a))
    (l : List α) : ∀ s, R s (l.foldl f s) := by
  induction l with
  | nil => exact fun s => hR.refl s
  | cons a l ih => exact fun s => hR.trans _ _ _ (hf s a) (ih _)

theorem storeTranslated (hR : LoadSide R) (pa i : Nat) (s : Cpu μ) :
    R s (storeTranslated pa i s) :=
  hR.trans _ _ _ (hR.store s i (translateEntry pa s.cycle) fun _ => rfl)
    (hR.beside _ _ rfl rfl rfl rfl)

theorem loadTranslated (hR : LoadSide R) (pa i : Nat) (s : Cpu μ) : R s (loadTranslated pa i s) :=
  hR.trans _ _ _ (hR.load s i (translateEntry pa s.cycle) fun _ => rfl)
    (hR.beside _ _ rfl rfl rfl rfl)

theorem handleMergedTranslation (hR : LoadSide R) (p : Packet) (s : Cpu μ) :
    R s (handleMergedTranslation p s) := by
  have hstores : R s (if p.storeMerged then
      (expand p.sqIndexDependOnMe s.sq.size).foldl (fun s i => O3.storeTranslated p.dataPa i s) s
    else s) := by
    split
    · exact hR.foldl (fun s i => hR.storeTranslated p.dataPa i s) _ s
    · exact hR.refl s
  unfold O3.handleMergedTranslation
  dsimp only
  split
  · exact hR.trans _ _ _ hstores (hR.foldl (fun s i => hR.loadTranslated p.dataPa i s) _ _)
  · exact hstores

theorem completeTranslation (hR : LoadSide R) (p : Packet) (s : Cpu μ) :
    R s (completeTranslation p s) := by
  have hown : R s (if p.type = .rfo then O3.storeTranslated p.dataPa p.sqIndex s
      else O3.loadTranslated p.dataPa p.lqIndex s) := by
    split
    · exact hR.storeTranslated p.dataPa p.sqIndex s
    · exact hR.loadTranslated p.dataPa p.lqIndex s
  exact hR.trans _ _ _ (hR.trans _ _ _ hown (hR.handleMergedTranslation p _)) (hR.date ..)

theorem loadReturned (hR : LoadSide R) {lq i n : Nat} (h : loadReturned lq i n s = some s') :
    R s s' := by
  obtain ⟨t, ht, rfl⟩ := Option.map_eq_some_iff.mp h
  exact hR.served (fun _ => by rfl) ht

theorem mergedLoads (hR : LoadSide R) (is : List Nat) :
    ∀ s : Cpu μ, mergedLoads is s = some s' → R s s' := by
  induction is with
  | nil =>
    intro s h
    cases h
    exact hR.refl _
  | cons i is ih =>
    intro s h
    obtain ⟨t, ht, h⟩ := Option.bind_eq_some_iff.mp h
    exact hR.trans _ _ _ (hR.loadReturned ht) (ih t h)

theorem completeLoad (hR : LoadSide R) {p : Packet} (h : completeLoad p s = some s') :
    R s s' := by
  unfold O3.completeLoad at h
  split at h
  · exact hR.mergedLoads _ s h
  · split at h
    · cases h
    · obtain ⟨t, ht, h⟩ := Option.bind_eq_some_iff.mp h
      exact hR.trans _ _ _ (hR.loadReturned ht) (hR.mergedLoads _ t h)

theorem completeDataFetch (hR : LoadSide R) {M : Memory μ} {server : Server} {p : Packet}
    (h : completeDataFetch M server p s = some s') : R s s' := by
  unfold O3.completeDataFetch at h
  split at h
  · obtain ⟨t, ht, h⟩ := Option.bind_eq_some_iff.mp h
    obtain ⟨mem, -, rfl⟩ := Option.map_eq_some_iff.mp h
    have hdone : R s t := by
      split at ht
      · cases ht
        exact hR.completeTranslation p s
      · exact hR.completeLoad ht
    exact hR.trans _ _ _ hdone (hR.beside _ _ rfl rfl rfl rfl)
  · cases h

end LoadSide

theorem quiet_loadSide : LoadSide (Quiet held (μ := μ)) where
  refl := .refl
  trans := fun _ _ _ h h' => h.trans h'
  beside := fun _ _ hstate _ hsq hrest => .of_eq hstate hsq hrest
  finish := fun s i _ => quiet_modifyRob s i fun _ => rfl
  date := fun s i _ => quiet_modifyRob s i fun _ => rfl
  depend := fun s i _ => quiet_modifyRob s i fun _ => rfl
  load := fun s i f _ => quiet_modifyLq s i f
  release := fun _ _ => .of_eq rfl rfl rfl
  store := fun s i _ hf => quiet_modifySq s i hf

/-! ## A load enters -/

section Loads

variable {c : Config} {s s' : Cpu μ}

theorem memRawDependency_quiet (prior current j lq : Nat) (s : Cpu μ) :
    Quiet held s (memRawDependency c prior current j lq s) := by
  unfold memRawDependency
  split
  · refine Quiet.trans ?_ (quiet_modifyLq _ lq _)
    exact quiet_modifyRob s prior fun _ => rfl
  · exact .refl s

theorem findProducer_quiet (i j lq : Nat) (s : Cpu μ) :
    Quiet held s (findProducer c i j lq s) := by
  refine quiet_loadSide.foldl (fun s a => ?_) _ s
  split
  · exact .refl s
  · exact memRawDependency_quiet a i j lq s

theorem enterLoad_quiet (i j lq : Nat) (s : Cpu μ) : Quiet held s (enterLoad c i j lq s) :=
  ⟨.of_update rfl, .refl .., .refl .., .refl .., rfl⟩

theorem loadAdded_quiet (i j lq : Nat) (s : Cpu μ) : Quiet steady s (loadAdded i j lq s) := by
  have hmod : Quiet steady s (s.modifyRob i fun x =>
      { x with sourceAdded := Function.update x.sourceAdded j true }) :=
    quiet_modifyRob s i fun _ => rfl
  unfold loadAdded
  dsimp only
  split
  · exact hmod.trans (.of_eq rfl rfl rfl)
  · exact hmod

/-- The load before its last part, which marks the operand as added. -/
theorem addLoadQueue_cases {i j : Nat} (h : addLoadQueue c i j s = some s') :
    ∃ lq t, Quiet held s t ∧ s' = loadAdded i j lq t := by
  obtain ⟨lq, -, h⟩ := Option.bind_eq_some_iff.mp h
  obtain ⟨t, ht, rfl⟩ := Option.map_eq_some_iff.mp h
  refine ⟨lq, t, ?_, rfl⟩
  have hfind := (enterLoad_quiet (c := c) i j lq s).trans (findProducer_quiet (c := c) i j lq _)
  have hloop := hfind.trans (quiet_loadSide.forwardLoop i lq
    (List.range (findProducer c i j lq (enterLoad c i j lq s)).sq.size) _)
  split at ht
  · exact hloop.trans (quiet_loadSide.forwardFrom ht)
  · cases ht
    exact hloop

theorem addLoadQueue_quiet {i j : Nat} (h : addLoadQueue c i j s = some s') :
    Quiet steady s s' := by
  obtain ⟨lq, t, ht, rfl⟩ := addLoadQueue_cases h
  exact ht.of_held.trans (loadAdded_quiet i j lq t)

theorem addLoadQueue_added {i j : Nat} (h : addLoadQueue c i j s = some s') :
    (s'.rob.entry i).sourceAdded = Function.update (s.rob.entry i).sourceAdded j true := by
  obtain ⟨lq, t, ht, rfl⟩ := addLoadQueue_cases h
  have hadded : (t.rob.entry i).sourceAdded = (s.rob.entry i).sourceAdded := by
    have hheld := congrArg OooModelInstr.sourceAdded (ht.rob.entry i)
    exact hheld
  unfold loadAdded
  dsimp only
  rw [← hadded]
  split <;> simp [Cpu.modifyRob, Cpu.pushRtl, Core.modify]

end Loads

/-! ## The front rings -/

section Front

variable {M : Memory μ} {c : Config} {s s' : Cpu μ} {π : OooModelInstr → OooModelInstr}

theorem Quiet.of_ifetch {r : Lib.Ring OooModelInstr} {mem : μ}
    (h : Ring.Alike unfetched s.ifetchBuffer r) :
    Quiet π s { s with mem := mem, ifetchBuffer := r } :=
  ⟨.refl .., .refl .., h, .refl .., rfl⟩

theorem requestTranslation_quiet {i index : Nat} (h : requestTranslation M c i index s = some s') :
    Quiet π s s' := by
  simp only [requestTranslation] at h
  split at h
  · obtain ⟨⟨accepted, mem⟩, -, rfl⟩ := Option.map_eq_some_iff.mp h
    split
    · refine .of_ifetch (.of_entry fun j => ?_)
      split <;> rfl
    · exact .of_eq rfl rfl rfl
  · cases h
    exact .refl s

theorem requestLine_quiet {index : Nat} (h : requestLine M c index s = some s') :
    Quiet π s s' := by
  simp only [requestLine] at h
  split at h
  · obtain ⟨⟨accepted, mem⟩, -, rfl⟩ := Option.map_eq_some_iff.mp h
    split
    · refine .of_ifetch (.of_entry fun j => ?_)
      split <;> rfl
    · exact .of_eq rfl rfl rfl
  · cases h
    exact .refl s

theorem completeInstrFetch_quiet {server : Server} {p : Packet}
    (h : completeInstrFetch M server p s = some s') : Quiet π s s' := by
  obtain ⟨mem, -, rfl⟩ := Option.map_eq_some_iff.mp h
  refine .of_ifetch ?_
  split
  · refine .of_entry fun j => ?_
    dsimp only
    split <;> rfl
  · refine .of_entry fun j => ?_
    dsimp only
    split <;> rfl

theorem decodeLoop_alike (c : Core.Config) (env : CycleEnv) (k : Nat) :
    ∀ (count index : Nat) (r : Lib.Ring OooModelInstr),
      Ring.Alike undated r (decodeLoop c env k count index r) := by
  induction k with
  | zero => exact fun _ _ r => .refl _ r
  | succ k ih =>
    intro count index r
    have hdate : Ring.Alike undated r (if (r.entry index).eventCycle = 0 then
        modify r index (setEventCycle (add64 env.currentCoreCycle c.decodeLatency)) else r) := by
      split
      · exact .of_update rfl
      · exact .refl _ r
    simp only [decodeLoop]
    split
    · exact .refl _ r
    · generalize (if (r.entry index).eventCycle = 0 then
        modify r index (setEventCycle (add64 env.currentCoreCycle c.decodeLatency)) else r) = r' at *
      generalize (if (r.entry index).eventCycle = 0 then count + 1 else count) = count'
      split
      · exact hdate
      · split
        · exact hdate
        · exact hdate.trans (ih _ _ _)

theorem decodeLoop_quiet (d : Core.Config) (env : CycleEnv) (k count index : Nat) (s : Cpu μ) :
    Quiet π s { s with
      decodeBuffer := decodeLoop d env k count index s.decodeBuffer } :=
  ⟨.refl .., decodeLoop_alike .., .refl .., .refl .., rfl⟩

end Front

end O3
end ChampSim
