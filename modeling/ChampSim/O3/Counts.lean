import ChampSim.O3.Forward
import ChampSim.O3.Issued
import ChampSim.O3.StoreFifo
import ChampSim.Lib.Tally

/-!
# ChampSim.O3.Counts

The counters with which `update_rob` decides whether anything can complete.

* `issued`, `answered`, `finished` — the instructions that the three counters count.
* `Counts s`        — the counters, and what an instruction with open operands is.
* `Works I`         — no write of the load side but `finish_mem_op` touches what `I` is about.
* `Counts.finish`   — `finish_mem_op` counts the instruction whose last operand it closes.
* `Counts.move`     — so do the other steps.
* `counters_exact`  — in every state reached.
-/

namespace ChampSim
namespace O3

open Lib ChampSim.Core

variable {μ : Type}

/-! ## What is counted -/

def issued (x : OooModelInstr) : Bool := !x.isMemory && decide (x.executed = .inflight)

def answered (x : OooModelInstr) : Bool :=
  x.isMemory && decide (x.numMemOps = 0 ∧ x.executed ≠ .completed)

def finished (x : OooModelInstr) : Bool := decide (x.executed = .completed)

/-- All that the counters depend on. -/
def counted (x : OooModelInstr) : Bool × Progress × Int := (x.isMemory, x.executed, x.numMemOps)

/-- An instruction up to what only loads and answers write, among which only the count is counted. -/
def worked (x : OooModelInstr) : OooModelInstr × Int := (steady x, x.numMemOps)

/-- An instruction has open operands only while it is not done. -/
structure Open (x : OooModelInstr) : Prop where
  nonneg : 0 ≤ x.numMemOps
  memory : 0 < x.numMemOps → x.isMemory = true
  executed : 0 < x.numMemOps → x.executed ≠ .completed

def Cpu.counters (s : Cpu μ) : Lib.Ring OooModelInstr × Nat × Nat × Nat :=
  (s.rob, s.inflightRegExecutions, s.inflightMemExecutions, s.completedExecutions)

structure Counts (s : Cpu μ) : Prop where
  window : Window s.rob
  reg : s.inflightRegExecutions = s.rob.contents.countP issued
  mem : s.inflightMemExecutions = s.rob.contents.countP answered
  done : s.completedExecutions = s.rob.contents.countP finished
  entry : ∀ i, Open (s.rob.entry i)

variable {M : Memory μ} {c : Config} {t : Trace} {O : μ → μ → Prop} {s s' : Cpu μ}

section Views

variable {x y : OooModelInstr} {r r' : Lib.Ring OooModelInstr}

theorem counted_eq (h : counted x = counted y) :
    x.isMemory = y.isMemory ∧ x.executed = y.executed ∧ x.numMemOps = y.numMemOps := by
  simpa only [counted, Prod.mk.injEq] using h

theorem counted_of_worked (h : worked x = worked y) : counted x = counted y := by
  have hsteady : steady x = steady y := congrArg Prod.fst h
  have hmemory := congrArg OooModelInstr.isMemory hsteady
  have hexecuted := congrArg OooModelInstr.executed hsteady
  have hops : x.numMemOps = y.numMemOps := congrArg Prod.snd h
  simp only [counted, Prod.mk.injEq]
  exact ⟨hmemory, hexecuted, hops⟩

theorem Open.congr (h : Open y) (hxy : counted x = counted y) : Open x := by
  obtain ⟨hm, he, hn⟩ := counted_eq hxy
  exact ⟨hn ▸ h.nonneg, fun hpos => hm ▸ h.memory (hn ▸ hpos),
    fun hpos => he ▸ h.executed (hn ▸ hpos)⟩

theorem open_empty : Open .empty :=
  ⟨le_rfl, fun h => absurd h (by decide), fun h => absurd h (by decide)⟩

theorem issued_congr (h : counted x = counted y) : issued x = issued y := by
  obtain ⟨hm, he, -⟩ := counted_eq h
  simp only [issued, hm, he]

theorem answered_congr (h : counted x = counted y) : answered x = answered y := by
  obtain ⟨hm, he, hn⟩ := counted_eq h
  simp only [answered, hm, he, hn]

theorem finished_congr (h : counted x = counted y) : finished x = finished y := by
  obtain ⟨-, he, -⟩ := counted_eq h
  simp only [finished, he]

/-- Rings whose entries count alike. -/
theorem countP_alike {β : Type} {π : OooModelInstr → β} (ha : Ring.Alike π r r')
    {p : OooModelInstr → Bool} (hp : ∀ x y, π x = π y → p x = p y) :
    r'.contents.countP p = r.contents.countP p := by
  unfold Ring.contents
  rw [ha.occupancy, ha.size, ha.head, List.countP_map, List.countP_map]
  refine List.countP_congr fun k _ => ?_
  simp only [Function.comp_apply]
  rw [hp _ _ (ha.entry _)]

/-- One live entry is rewritten. -/
theorem countP_modify (hw : Window r) {i : Nat} (hi : r.Live i) (f : OooModelInstr → OooModelInstr)
    (p : OooModelInstr → Bool) :
    (modify r i f).contents.countP p + (p (r.entry i)).toNat =
      r.contents.countP p + (p (f (r.entry i))).toNat := by
  obtain ⟨k, hk, rfl⟩ := hi
  have hset : (modify r (Ring.idx r.size r.head k) f).contents =
      r.contents.set k (f (r.entry (Ring.idx r.size r.head k))) := Ring.update_contents hw.wf hk _
  have hget := Ring.getElem?_contents hk
  have htally := tally_set (w := fun x => (p x).toNat) hget (f (r.entry (Ring.idx r.size r.head k)))
  have hcount : ∀ l : List OooModelInstr, tally (fun x => (p x).toNat) l = l.countP p := by
    intro l
    induction l with
    | nil => rfl
    | cons x l ih =>
      rw [tally_cons, ih, List.countP_cons]
      cases p x <;> simp [Nat.add_comm]
  rw [hset, ← hcount, ← hcount]
  exact htally

theorem countP_push (hw : Window r) (hroom : r.occupancy < r.size) (x : OooModelInstr)
    (p : OooModelInstr → Bool) :
    (r.push x).contents.countP p = r.contents.countP p + (p x).toNat := by
  rw [Ring.push_contents hw.wf hroom, List.countP_append, List.countP_singleton]
  cases p x <;> rfl

theorem countP_pop (hw : Window r) (hpos : 0 < r.occupancy) (e : OooModelInstr)
    (p : OooModelInstr → Bool) :
    (r.pop e).contents.countP p + (p (r.entry r.head)).toNat = r.contents.countP p := by
  rw [Ring.pop_contents hw.wf hpos e, List.countP_cons]
  cases p (r.entry r.head) <;> rfl

theorem countP_le (hw : Window r) (p : OooModelInstr → Bool) : r.contents.countP p ≤ robSize := by
  have hle := hw.wf.occ_le
  rw [hw.size] at hle
  exact List.countP_le_length.trans ((Ring.contents_length r).le.trans hle)

end Views

/-! ## The load side -/

/-- Nothing that is counted changes, and the memory is not called. -/
structure Idle (s s' : Cpu μ) : Prop where
  rob : Ring.Alike worked s.rob s'.rob
  reg : s'.inflightRegExecutions = s.inflightRegExecutions
  mem : s'.inflightMemExecutions = s.inflightMemExecutions
  done : s'.completedExecutions = s.completedExecutions
  memory : s'.mem = s.mem

theorem Idle.refl (s : Cpu μ) : Idle s s := ⟨.refl .., rfl, rfl, rfl, rfl⟩

theorem Idle.trans {s'' : Cpu μ} (h : Idle s s') (h' : Idle s' s'') : Idle s s'' :=
  ⟨h.rob.trans h'.rob, h'.reg.trans h.reg, h'.mem.trans h.mem, h'.done.trans h.done,
    h'.memory.trans h.memory⟩

theorem idle_modifyRob (s : Cpu μ) (i : Nat) {f : OooModelInstr → OooModelInstr}
    (hf : ∀ x, worked (f x) = worked x) : Idle s (s.modifyRob i f) :=
  ⟨.of_update (hf _), rfl, rfl, rfl, rfl⟩

theorem Idle.of_eq (hrob : s'.rob = s.rob) (hreg : s'.inflightRegExecutions = s.inflightRegExecutions)
    (hmem : s'.inflightMemExecutions = s.inflightMemExecutions)
    (hdone : s'.completedExecutions = s.completedExecutions) (hmemory : s'.mem = s.mem) :
    Idle s s' :=
  ⟨hrob ▸ .refl .., hreg, hmem, hdone, hmemory⟩

theorem idle_modifyLq (s : Cpu μ) (i : Nat) (f : LsqEntry → LsqEntry) :
    Idle s (s.modifyLq i f) := .of_eq rfl rfl rfl rfl rfl

theorem idle_modifySq (s : Cpu μ) (i : Nat) (f : LsqEntry → LsqEntry) :
    Idle s (s.modifySq i f) := .of_eq rfl rfl rfl rfl rfl

theorem releaseLoadQueue_idle (i : Nat) (s : Cpu μ) : Idle s (releaseLoadQueue i s) :=
  .of_eq rfl rfl rfl rfl rfl

theorem storeTranslated_idle (pa i : Nat) (s : Cpu μ) : Idle s (storeTranslated pa i s) :=
  .of_eq rfl rfl rfl rfl rfl

theorem loadTranslated_idle (pa i : Nat) (s : Cpu μ) : Idle s (loadTranslated pa i s) :=
  .of_eq rfl rfl rfl rfl rfl

theorem idle_foldl {α : Type} {f : Cpu μ → α → Cpu μ} (hf : ∀ s a, Idle s (f s a)) (l : List α) :
    ∀ s, Idle s (l.foldl f s) := by
  induction l with
  | nil => exact fun s => .refl s
  | cons a l ih => exact fun s => (hf s a).trans (ih _)

theorem memRawDependency_idle (prior current j lq : Nat) (s : Cpu μ) :
    Idle s (memRawDependency c prior current j lq s) := by
  unfold memRawDependency
  split
  · exact ⟨.of_update rfl, rfl, rfl, rfl, rfl⟩
  · exact .refl s

theorem findProducer_idle (i j lq : Nat) (s : Cpu μ) : Idle s (findProducer c i j lq s) := by
  refine idle_foldl (fun s a => ?_) _ s
  split
  · exact .refl s
  · exact memRawDependency_idle a i j lq s

theorem forwardLoop_idle (i lq : Nat) (is : List Nat) :
    ∀ s : Cpu μ, Idle s (forwardLoop i lq is s).2 := by
  induction is with
  | nil => exact fun s => .refl s
  | cons a is ih =>
    intro s
    simp only [forwardLoop]
    split
    · split
      · exact .refl s
      · split
        · exact (idle_modifyLq s lq _).trans (ih _)
        · exact ih s
    · exact ih s

theorem loadAdded_idle (i j lq : Nat) (s : Cpu μ) : Idle s (loadAdded i j lq s) := by
  have hmark : Idle s (s.modifyRob i fun x =>
      { x with sourceAdded := Function.update x.sourceAdded j true }) :=
    idle_modifyRob s i fun _ => rfl
  unfold loadAdded
  dsimp only
  split
  · exact hmark.trans (.of_eq rfl rfl rfl rfl rfl)
  · exact hmark

theorem handleMergedTranslation_idle (p : Packet) (s : Cpu μ) :
    Idle s (handleMergedTranslation p s) := by
  have hstores : Idle s (if p.storeMerged then
      (expand p.sqIndexDependOnMe s.sq.size).foldl (fun s i => storeTranslated p.dataPa i s) s
    else s) := by
    split
    · exact idle_foldl (fun s i => storeTranslated_idle p.dataPa i s) _ s
    · exact .refl s
  unfold handleMergedTranslation
  dsimp only
  split
  · exact hstores.trans (idle_foldl (fun s i => loadTranslated_idle p.dataPa i s) _ _)
  · exact hstores

theorem completeTranslation_idle (p : Packet) (s : Cpu μ) : Idle s (completeTranslation p s) := by
  have hown : Idle s (if p.type = .rfo then storeTranslated p.dataPa p.sqIndex s
      else loadTranslated p.dataPa p.lqIndex s) := by
    split
    · exact storeTranslated_idle p.dataPa p.sqIndex s
    · exact loadTranslated_idle p.dataPa p.lqIndex s
  refine (hown.trans (handleMergedTranslation_idle p _)).trans ?_
  exact idle_modifyRob _ _ fun _ => rfl

/-- Properties that survive the writes of the load side, among them `finish_mem_op`. -/
structure Works (I : Cpu μ → Prop) : Prop where
  idle : ∀ s s', Idle s s' → I s → I s'
  finish : ∀ s s' i n, finishMemOp i n s = some s' → I s → I s'

namespace Works

variable {I : Cpu μ → Prop}

/-- A load gets its data and leaves the queue. -/
theorem served (hI : Works I) {lq i n : Nat} {f : LsqEntry → LsqEntry}
    (h : finishMemOp i n (s.modifyLq lq f) = some s') (hs : I s) : I (releaseLoadQueue lq s') :=
  hI.idle _ _ (releaseLoadQueue_idle lq s')
    (hI.finish _ _ _ _ h (hI.idle _ _ (idle_modifyLq s lq f) hs))

theorem forwardFrom (hI : Works I) {lq sq : Nat} (h : forwardFrom lq sq s = some s') (hs : I s) :
    I s' := by
  simp only [O3.forwardFrom] at h
  split at h
  · obtain ⟨t, ht, rfl⟩ := Option.map_eq_some_iff.mp h
    exact hI.served ht hs
  · cases h
    exact hs

theorem addLoadQueue (hI : Works I) {i j : Nat} (h : addLoadQueue c i j s = some s') (hs : I s) :
    I s' := by
  obtain ⟨lq, -, h⟩ := Option.bind_eq_some_iff.mp h
  obtain ⟨t, ht, rfl⟩ := Option.map_eq_some_iff.mp h
  have henter : Idle s (enterLoad c i j lq s) := ⟨.of_update rfl, rfl, rfl, rfl, rfl⟩
  have hloop := hI.idle _ _ ((henter.trans (findProducer_idle (c := c) i j lq _)).trans
    (forwardLoop_idle i lq (List.range (findProducer c i j lq (enterLoad c i j lq s)).sq.size) _)) hs
  refine hI.idle _ _ (loadAdded_idle i j lq t) ?_
  split at ht
  · exact hI.forwardFrom ht hloop
  · cases ht
    exact hloop

theorem resolveLoad (hI : Works I) {i sq d j lq : Nat}
    (h : resolveLoad i sq d j lq s = some s') (hs : I s) : I s' := by
  simp only [O3.resolveLoad] at h
  split at h
  · cases h
  · split at h
    · cases h
    · obtain ⟨t, ht, rfl⟩ := Option.map_eq_some_iff.mp h
      have hserved := hI.served ht hs
      split
      · exact hI.idle _ _ (idle_modifyRob _ _ fun _ => rfl) hserved
      · exact hserved

theorem resolveSources (hI : Works I) (i sq d : Nat) (js : List Nat) :
    ∀ s : Cpu μ, resolveSources i sq d js s = some s' → I s → I s' := by
  induction js with
  | nil =>
    intro s h hs
    cases h
    exact hs
  | cons j js ih =>
    intro s h hs
    simp only [O3.resolveSources] at h
    split at h
    · obtain ⟨t, ht, h⟩ := Option.bind_eq_some_iff.mp h
      exact ih t h (hI.resolveLoad ht hs)
    · exact ih s h hs

theorem resolveDependents (hI : Works I) (i sq : Nat) (ds : List Nat) :
    ∀ s : Cpu μ, resolveDependents i sq ds s = some s' → I s → I s' := by
  induction ds with
  | nil =>
    intro s h hs
    cases h
    exact hs
  | cons d ds ih =>
    intro s h hs
    obtain ⟨t, ht, h⟩ := Option.bind_eq_some_iff.mp h
    exact ih t h (hI.resolveSources i sq d _ s ht hs)

theorem executeStore (hI : Works I) {i sq : Nat} (h : executeStore i sq s = some s') (hs : I s) :
    I s' := by
  obtain ⟨t, ht, h⟩ := Option.bind_eq_some_iff.mp h
  have hfinish := hI.finish _ _ _ _ ht (hI.idle _ _ (idle_modifySq s sq _) hs)
  dsimp only at h
  split at h
  · exact hI.resolveDependents i sq _ t h hfinish
  · cases h
    exact hfinish

theorem mergedLoads (hI : Works I) (is : List Nat) :
    ∀ s : Cpu μ, mergedLoads is s = some s' → I s → I s' := by
  induction is with
  | nil =>
    intro s h hs
    cases h
    exact hs
  | cons i is ih =>
    intro s h hs
    obtain ⟨t, ht, h⟩ := Option.bind_eq_some_iff.mp h
    obtain ⟨u, hu, rfl⟩ := Option.map_eq_some_iff.mp ht
    exact ih _ h (hI.served hu hs)

theorem completeLoad (hI : Works I) {p : Packet} (h : completeLoad p s = some s') (hs : I s) :
    I s' := by
  unfold O3.completeLoad at h
  split at h
  · exact hI.mergedLoads _ s h hs
  · split at h
    · cases h
    · obtain ⟨t, ht, h⟩ := Option.bind_eq_some_iff.mp h
      obtain ⟨u, hu, rfl⟩ := Option.map_eq_some_iff.mp ht
      exact hI.mergedLoads _ _ h (hI.served hu hs)

/-- An answer is taken from the memory once the core has used it. -/
theorem completeDataFetch (hI : Works I) {server : Server} {p : Packet}
    (h : completeDataFetch M server p s = some s') (hs : I s) :
    ∃ t mem, I t ∧ M.removeProcessed server t.mem = some mem ∧ s' = { t with mem := mem } := by
  unfold O3.completeDataFetch at h
  split at h
  · obtain ⟨t, ht, h⟩ := Option.bind_eq_some_iff.mp h
    obtain ⟨mem, hmem, rfl⟩ := Option.map_eq_some_iff.mp h
    refine ⟨t, mem, ?_, hmem, rfl⟩
    split at ht
    · cases ht
      exact hI.idle _ _ (completeTranslation_idle p s) hs
    · exact hI.completeLoad ht hs
  · cases h

end Works

/-! ## The counters -/

theorem counts_init (mem : μ) : Counts (.init mem) where
  window := window_empty (by decide)
  reg := rfl
  mem := rfl
  done := rfl
  entry := fun _ => open_empty

/-- Nothing that the counters count has changed. -/
theorem Counts.alike (h : Counts s) (hw : Window s'.rob) (ha : Ring.Alike counted s.rob s'.rob)
    (hreg : s'.inflightRegExecutions = s.inflightRegExecutions)
    (hmem : s'.inflightMemExecutions = s.inflightMemExecutions)
    (hdone : s'.completedExecutions = s.completedExecutions) : Counts s' where
  window := hw
  reg := by rw [hreg, h.reg, countP_alike ha fun _ _ => issued_congr]
  mem := by rw [hmem, h.mem, countP_alike ha fun _ _ => answered_congr]
  done := by rw [hdone, h.done, countP_alike ha fun _ _ => finished_congr]
  entry := fun i => (h.entry i).congr (ha.entry i)

/-- The ROB and the counters are as they were. -/
theorem Counts.same (h : Counts s) (heq : s'.counters = s.counters) : Counts s' := by
  simp only [Cpu.counters, Prod.mk.injEq] at heq
  obtain ⟨hrob, hreg, hmem, hdone⟩ := heq
  exact h.alike (hrob ▸ h.window) (hrob ▸ .refl ..) hreg hmem hdone

theorem Counts.idle (h : Counts s) (hs : Idle s s') : Counts s' :=
  h.alike (h.window.alike (hs.rob.comp Prod.fst))
    ⟨hs.rob.size, hs.rob.head, hs.rob.tail, hs.rob.occupancy,
      fun i => counted_of_worked (hs.rob.entry i)⟩ hs.reg hs.mem hs.done

/-- One instruction is rewritten, and the counters go with it. -/
theorem Counts.rewrite (h : Counts s) {i : Nat} (hi : s.rob.Live i)
    {f : OooModelInstr → OooModelInstr} (hw : Window s'.rob)
    (ha : Ring.Alike counted (modify s.rob i f) s'.rob) (hopen : Open (f (s.rob.entry i)))
    (hreg : s'.inflightRegExecutions + (issued (s.rob.entry i)).toNat =
      s.inflightRegExecutions + (issued (f (s.rob.entry i))).toNat)
    (hmem : s'.inflightMemExecutions + (answered (s.rob.entry i)).toNat =
      s.inflightMemExecutions + (answered (f (s.rob.entry i))).toNat)
    (hdone : s'.completedExecutions + (finished (s.rob.entry i)).toNat =
      s.completedExecutions + (finished (f (s.rob.entry i))).toNat) : Counts s' where
  window := hw
  reg := by
    have hcount := countP_modify h.window hi f issued
    rw [countP_alike ha fun _ _ => issued_congr]
    rw [h.reg] at hreg
    omega
  mem := by
    have hcount := countP_modify h.window hi f answered
    rw [countP_alike ha fun _ _ => answered_congr]
    rw [h.mem] at hmem
    omega
  done := by
    have hcount := countP_modify h.window hi f finished
    rw [countP_alike ha fun _ _ => finished_congr]
    rw [h.done] at hdone
    omega
  entry := by
    intro k
    refine Open.congr ?_ (ha.entry k)
    by_cases hk : k = i
    · subst hk
      rw [modify_self]
      exact hopen
    · rw [modify_ne hk]
      exact h.entry k

/-- The instruction at `i` is counted, so the counter can be lowered. -/
theorem countP_pos_of_live {r : Lib.Ring OooModelInstr} {i : Nat} (hi : r.Live i)
    {p : OooModelInstr → Bool} (hp : p (r.entry i) = true) : 0 < r.contents.countP p := by
  obtain ⟨k, hk, rfl⟩ := hi
  exact List.countP_pos_iff.mpr ⟨_, Ring.mem_contents.mpr ⟨k, hk, rfl⟩, hp⟩

/-- An instruction that is not counted leaves room above the counter. -/
theorem countP_lt_of_live {r : Lib.Ring OooModelInstr} (hw : Window r) {i : Nat} (hi : r.Live i)
    {p : OooModelInstr → Bool} (hp : p (r.entry i) = false) : r.contents.countP p < robSize := by
  have hle := hw.wf.occ_le
  rw [hw.size, ← Ring.contents_length] at hle
  obtain ⟨k, hk, rfl⟩ := hi
  have hmem := Ring.mem_contents.mpr ⟨k, hk, rfl⟩
  refine Nat.lt_of_lt_of_le (Nat.lt_of_le_of_ne List.countP_le_length fun heq => ?_) hle
  have hall := List.countP_eq_length.mp heq _ hmem
  rw [hp] at hall
  cases hall

theorem add32_count {n : Nat} (h : n < robSize) : add32 n 1 = n + 1 := by
  unfold robSize at h
  unfold add32
  omega

theorem sub32_count {n : Nat} (hpos : 0 < n) (h : n ≤ robSize) : sub32 n 1 + 1 = n := by
  unfold robSize at h
  unfold sub32
  omega

theorem add64_count {n : Nat} (h : n < robSize) : add64 n 1 = n + 1 := by
  unfold robSize at h
  unfold add64
  omega

theorem sub64_count {n : Nat} (hpos : 0 < n) (h : n ≤ robSize) : sub64 n 1 + 1 = n := by
  unfold robSize at h
  unfold sub64
  omega

/-- An operand is closed; with the last one the instruction is counted. -/
theorem Counts.finish {i n : Nat} (h' : finishMemOp i n s = some s') (h : Counts s) :
    Counts s' := by
  rw [finishMemOp_eq] at h'
  split at h'
  · cases h'
  · rename_i hpos
    cases h'
    have hmemory := (h.entry i).memory (by omega)
    have hexecuted := (h.entry i).executed (by omega)
    have hlive : s.rob.Live i :=
      h.window.live_of (·.isMemory) (fun _ => rfl) (by rw [hmemory]; decide)
    have hwas : answered (s.rob.entry i) = false := by
      simp [answered, show (s.rob.entry i).numMemOps ≠ 0 by omega]
    have hnow : answered (opFinished n (s.rob.entry i)) =
        decide ((s.rob.entry i).numMemOps = 1) := by
      have hops : (s.rob.entry i).numMemOps - 1 = 0 ↔ (s.rob.entry i).numMemOps = 1 := by omega
      simp [answered, opFinished, hmemory, hexecuted, hops]
    refine h.rewrite hlive (f := opFinished n) (h.window.modify hlive _) (.refl ..)
      ⟨?_, fun _ => hmemory, fun _ => hexecuted⟩ rfl ?_ rfl
    · show 0 ≤ (s.rob.entry i).numMemOps - 1
      omega
    · rw [hwas, hnow]
      have hlt := countP_lt_of_live h.window hlive hwas
      rw [← h.mem] at hlt
      by_cases hone : (s.rob.entry i).numMemOps = 1
      · simp [hone, add32_count hlt]
      · simp [hone]

theorem works_counts : Works (Counts (μ := μ)) where
  idle := fun _ _ hs h => h.idle hs
  finish := fun _ _ _ _ h' h => h.finish h'

/-! ## The steps -/

theorem Open.issue {x : OooModelInstr} (h : Open x) (hm : x.isMemory = false)
    {e : Progress} {n : Nat} : Open { x with executed := e, eventCycle := n } :=
  ⟨h.nonneg, h.memory, fun hpos => by rw [h.memory hpos] at hm; cases hm⟩

/-- A non-memory instruction is issued. -/
theorem Counts.execute (h : Counts s) (hf : Flow c s) {b : Half} (hb : (s.rte b).front < robSize) :
    Counts ((doExecution c (s.rte b).front s).popRte b) := by
  have hwait := hf.front_waits hb
  have hm := hwait.memory
  have he := hwait.executed
  have hwas : issued (s.rob.entry (s.rte b).front) = false := by simp [issued, he]
  let f : OooModelInstr → OooModelInstr := fun x =>
    addLatency s.cycle c.execLatency { x with executed := .inflight }
  have hwindow : Window ((doExecution c (s.rte b).front s).popRte b).rob :=
    h.window.modify hwait.live f
  refine h.rewrite hwait.live (f := f) hwindow (.refl ..) ((h.entry _).issue hm) ?_ ?_ ?_
  · have hlt := countP_lt_of_live h.window hwait.live hwas
    rw [← h.reg] at hlt
    have hnow : issued (f (s.rob.entry (s.rte b).front)) = true := by
      simp [f, issued, addLatency, hm]
    have hadd : ((doExecution c (s.rte b).front s).popRte b).inflightRegExecutions =
        s.inflightRegExecutions + 1 := add32_count hlt
    rw [hwas, hnow, hadd]
    rfl
  · simp [f, answered, addLatency, hm]
    rfl
  · simp [f, finished, addLatency, he]
    rfl

/-- The completion scan has reached an instruction that is done. -/
theorem Counts.complete (h : Counts s) {p : Nat} (hw : Window s'.rob) (hd : Done p s s') :
    Counts s' := by
  have he := hd.inflight
  have hlive : s.rob.Live p := h.window.live_of (·.executed) (fun _ => rfl) (by rw [he]; decide)
  have hreg := congrArg Cpu.inflightRegExecutions hd.rest
  have hmem := congrArg Cpu.inflightMemExecutions hd.rest
  have hdone := congrArg Cpu.completedExecutions hd.rest
  dsimp only at hreg hmem hdone
  have ha : Ring.Alike counted (modify s.rob p markCompleted) s'.rob := hd.shape.comp counted
  refine h.rewrite hlive hw ha ?_ ?_ ?_ ?_
  · refine ⟨(h.entry p).nonneg, (h.entry p).memory, fun hpos => ?_⟩
    have hops := hd.operands ((h.entry p).memory hpos)
    have hpos : 0 < (s.rob.entry p).numMemOps := hpos
    omega
  · rw [hreg]
    cases hm : (s.rob.entry p).isMemory with
    | true => simp [issued, markCompleted, hm]
    | false =>
      have hwas : issued (s.rob.entry p) = true := by simp [issued, hm, he]
      have hnow : issued (markCompleted (s.rob.entry p)) = false := by simp [issued, markCompleted]
      have hpos := countP_pos_of_live hlive hwas
      have hle := countP_le h.window issued
      rw [← h.reg] at hpos hle
      rw [hwas, hnow]
      simp [sub32_count hpos hle]
  · rw [hmem]
    cases hm : (s.rob.entry p).isMemory with
    | true =>
      have hwas : answered (s.rob.entry p) = true := by simp [answered, hm, he, hd.operands hm]
      have hnow : answered (markCompleted (s.rob.entry p)) = false := by
        simp [answered, markCompleted]
      have hpos := countP_pos_of_live hlive hwas
      have hle := countP_le h.window answered
      rw [← h.mem] at hpos hle
      rw [hwas, hnow]
      simp [sub32_count hpos hle]
    | false => simp [answered, markCompleted, hm]
  · have hwas : finished (s.rob.entry p) = false := by simp [finished, he]
    have hnow : finished (markCompleted (s.rob.entry p)) = true := by simp [finished, markCompleted]
    have hlt := countP_lt_of_live h.window hlive hwas
    rw [← h.done] at hlt
    rw [hdone, hwas, hnow, add64_count hlt]
    rfl

theorem Counts.push (h : Counts s) (hroom : s.rob.occupancy < s.rob.size) {x : OooModelInstr}
    (hx : Fresh c x) {d : Lib.Ring OooModelInstr} :
    Counts { s with rob := s.rob.push x, decodeBuffer := d } := by
  have hopen : Open x := by
    refine ⟨?_, fun hpos => ?_, fun _ => ?_⟩
    · rw [hx.numMemOps]
      exact Int.add_nonneg (Int.natCast_nonneg _) (Int.natCast_nonneg _)
    · rw [hx.isMemory]
      exact decide_eq_true hpos
    · rw [hx.executed]
      decide
  have hanswered : answered x = false := by
    simp only [answered, hx.isMemory]
    by_cases hzero : x.numMemOps = 0
    · simp [hzero]
    · simp [hzero]
  refine ⟨h.window.push hroom x, ?_, ?_, ?_, Ring.forall_push h.entry hopen⟩
  · rw [countP_push h.window hroom, ← h.reg]
    simp [issued, hx.executed]
  · rw [countP_push h.window hroom, ← h.mem, hanswered]
    rfl
  · rw [countP_push h.window hroom, ← h.done]
    simp [finished, hx.executed]

theorem Counts.retire (h : Counts s) (hip : (s.rob.entry s.rob.head).ip ≠ 0)
    (hdone : (s.rob.entry s.rob.head).executed = .completed) (mem : μ) :
    Counts (releaseHead c { s with mem := mem }) := by
  have hpos := h.window.wf.occ_pos_of_head (by rw [h.window.size]; decide)
    (fun hblank => hip (by have := congrArg OooModelInstr.ip hblank; exact this))
  have hcount := fun p => countP_pop h.window hpos .empty p
  have hissued : issued (s.rob.entry s.rob.head) = false := by simp [issued, hdone]
  have hanswered : answered (s.rob.entry s.rob.head) = false := by simp [answered, hdone]
  have hfinished : finished (s.rob.entry s.rob.head) = true := by simp [finished, hdone]
  have hreg := hcount issued
  have hmem := hcount answered
  have hone := hcount finished
  have hle := countP_le h.window finished
  rw [hissued, ← h.reg] at hreg
  rw [hanswered, ← h.mem] at hmem
  rw [hfinished, ← h.done] at hone
  rw [← h.done] at hle
  have hsub := sub64_count (hone ▸ Nat.succ_pos _) hle
  refine ⟨h.window.pop hpos, hreg.symm, hmem.symm, ?_, Ring.forall_pop h.entry open_empty⟩
  show sub64 s.completedExecutions 1 = (s.rob.pop .empty).contents.countP finished
  rw [Bool.toNat_true] at hone
  omega

theorem Counts.move (h : Counts s) (hf : Flow c s) (hm : Move c t s s') : Counts s' := by
  have hf' := hf.move hm
  have hw := hf'.dep.linked.window
  cases hm with
  | tick => exact h.alike hw (.refl ..) rfl rfl rfl
  | read env b hroom hstall hrecord hsta => exact h.alike hw (.refl ..) rfl rfl rfl
  | resume env =>
    have hrob : (resumeFetch (env.front s.cycle) s.toState).rob = s.rob := by
      unfold resumeFetch
      split <;> rfl
    exact h.alike hw (hrob ▸ .refl ..) rfl rfl rfl
  | toDecode hip hroom => exact h.alike hw (.refl ..) rfl rfl rfl
  | toRob hip hroom =>
    have hfresh : Fresh c (setEventCycle s.cycle (s.decodeBuffer.entry s.decodeBuffer.head)) :=
      (hf.decode _).congr rfl
    exact h.push hroom hfresh
  | complete hc =>
    rcases hf.completes hc with rfl | hd
    · exact h
    · exact h.complete hw hd
  | schedule hfetched hidle hs =>
    have hd := hf.schedules hfetched hidle hs
    refine h.alike hw (hd.rob.comp counted) ?_ ?_ ?_
    · rw [hd.rest]
    · rw [hd.rest]
    · rw [hd.rest]
  | execute hi he => exact h.execute hf hi
  | addStore hi hj hmem ha hbefore hroom hsta hs =>
    obtain ⟨-, rfl⟩ := addStoreQueue_eq hs
    exact h.alike hw (.of_update rfl) rfl rfl rfl
  | memoryScheduled hi hall =>
    rename_i i
    have hmem := hi.memory
    refine h.rewrite (hf.live_candidate hi) (f := markMemoryScheduled) hw (.refl ..) ?_ ?_ ?_ ?_
    · refine ⟨(h.entry i).nonneg, (h.entry i).memory, fun hpos => ?_⟩
      have hold := (h.entry i).executed hpos
      unfold markMemoryScheduled
      dsimp only
      split
      · decide
      · exact hold
    · simp [issued, markMemoryScheduled, hmem]
      rfl
    · by_cases he : (s.rob.entry i).executed = .idle
      · simp [answered, markMemoryScheduled, he]
        rfl
      · simp [answered, markMemoryScheduled, he]
        rfl
    · by_cases he : (s.rob.entry i).executed = .idle
      · simp [finished, markMemoryScheduled, he]
        rfl
      · simp [finished, markMemoryScheduled, he]
        rfl
  | retire hip hdone => exact h.retire hip hdone _

/-! ## In every state reached -/

theorem requestTranslation_counters {i index : Nat}
    (h : requestTranslation M c i index s = some s') : s'.counters = s.counters := by
  simp only [requestTranslation] at h
  split at h
  · obtain ⟨⟨accepted, mem⟩, -, rfl⟩ := Option.map_eq_some_iff.mp h
    split <;> rfl
  · cases h
    rfl

theorem requestLine_counters {index : Nat} (h : requestLine M c index s = some s') :
    s'.counters = s.counters := by
  simp only [requestLine] at h
  split at h
  · obtain ⟨⟨accepted, mem⟩, -, rfl⟩ := Option.map_eq_some_iff.mp h
    split <;> rfl
  · cases h
    rfl

theorem completeInstrFetch_counters {server : Server} {p : Packet}
    (h : completeInstrFetch M server p s = some s') : s'.counters = s.counters := by
  obtain ⟨mem, -, rfl⟩ := Option.map_eq_some_iff.mp h
  rfl

theorem Counts.call (h : Counts s) (hf : Flow c s) (hcall : Call M c t O s s') : Counts s' := by
  cases hcall with
  | outside hO => exact h.same rfl
  | operate hM => exact h.same rfl
  | rewind => exact h.same rfl
  | read hroom hstall hrecord hsta hr => exact h.move hf (read_move hroom hstall hrecord hsta hr)
  | resume env => exact h.move hf (t := t) (.resume s env)
  | askItlb hd => exact h.same (requestTranslation_counters hd)
  | askL1i hd => exact h.same (requestLine_counters hd)
  | toDecode hip hroom hr => exact h.same rfl
  | toRob hip hroom hr =>
    rw [(addToRob_some hr).1, modify_push]
    exact h.move hf (t := t) (.toRob hip hroom)
  | dateDecode env k count index => exact h.same rfl
  | answerInstr hp hd => exact h.same (completeInstrFetch_counters hd)
  | answerData hp hs hd =>
    obtain ⟨t, mem, ht, -, rfl⟩ := works_counts.completeDataFetch hd h
    exact ht.same rfl
  | complete hd => exact h.move hf (t := t) (.complete hd)
  | schedule hfetched hidle hd => exact h.move hf (t := t) (.schedule hfetched hidle hd)
  | execute hi he => exact h.execute hf hi
  | addLoad hi hj hm ha hroom hd => exact works_counts.addLoadQueue hd h
  | addStore hi hj hm ha hbefore hroom hsta hd =>
    exact h.move hf (t := t) (.addStore hi hj hm ha hbefore hroom hsta hd)
  | memoryScheduled hi hall => exact h.move hf (t := t) (.memoryScheduled hi hall)
  | refused hd => exact h.same rfl
  | translateStore hi hd => exact h.same rfl
  | executeStore hi hd =>
    exact (works_counts.executeStore hd h).same rfl
  | translateLoad hi hd => exact h.same rfl
  | executeLoad hi hd => exact h.same rfl
  | retire hip hdone hd =>
    rw [writeStores_mem _ hd]
    exact h.retire hip hdone _

theorem Counts.op (h : Counts s) (hf : Flow c s) (hop : Op M c t O s s') : Counts s' := by
  cases hop with
  | tick => exact h.move hf (t := t) (.tick s)
  | call hcall => exact h.call hf hcall

theorem reaches_counts (h : Reaches M c t O s) : Counts s := by
  have hboth : Flow c s ∧ Counts s := by
    refine h.invariant (I := fun s => Flow c s ∧ Counts s)
      (fun mem => ⟨flow_init mem, counts_init mem⟩) ?_
    rintro s s' ⟨hf, hc⟩ hop
    exact ⟨hop.move.elim hf.quiet hf.move, hc.op hf hop⟩
  exact hboth.2

/-- `complete_execution` would complete it. -/
def Due (cycle : Nat) (x : OooModelInstr) : Prop :=
  x.executed = .inflight ∧ x.eventCycle ≤ cycle ∧ (x.isMemory = true → x.numMemOps = 0)

/-- Each counter is the number of instructions that it counts, so none of them is lowered below 0;
no instruction has fewer than 0 open operands, and one that has some is not done. While an
instruction is due, `update_rob` goes through the ROB. -/
theorem counters_exact (h : Reaches M c t O s) :
    s.inflightRegExecutions = s.rob.contents.countP issued ∧
      s.inflightMemExecutions = s.rob.contents.countP answered ∧
      s.completedExecutions = s.rob.contents.countP finished ∧
      (∀ x ∈ s.rob.contents, 0 ≤ x.numMemOps ∧
        (0 < x.numMemOps → x.isMemory = true ∧ x.executed ≠ .completed)) ∧
      ((∃ x ∈ s.rob.contents, Due s.cycle x) →
        s.inflightRegExecutions > 0 ∨ s.inflightMemExecutions > 0) := by
  have hc := reaches_counts h
  refine ⟨hc.reg, hc.mem, hc.done, fun x hx => ?_, ?_⟩
  · obtain ⟨k, -, rfl⟩ := Ring.mem_contents.mp hx
    have hopen := hc.entry (Ring.idx s.rob.size s.rob.head k)
    exact ⟨hopen.nonneg, fun hpos => ⟨hopen.memory hpos, hopen.executed hpos⟩⟩
  · rintro ⟨x, hx, hinflight, -, hops⟩
    rw [hc.reg, hc.mem]
    cases hm : x.isMemory with
    | false => exact .inl (List.countP_pos_iff.mpr ⟨x, hx, by simp [issued, hm, hinflight]⟩)
    | true =>
      exact .inr (List.countP_pos_iff.mpr ⟨x, hx, by simp [answered, hm, hinflight, hops hm]⟩)

/-- In the ninth cycle, before `update_rob` completes it, the stores of the oldest instruction have
been executed. -/
theorem counters_exact_storingBranch : ∃ s s', echoRun storingBranch 8 = some s ∧
    run (Phase.perform echo echoConfig ⟨[storingBranch], by simp⟩ echoTurn.toEnv) s.tick
      (phases.take 7) = some s' ∧ s'.inflightMemExecutions = 1 ∧
    s'.rob.contents.countP answered = 1 ∧ s'.rob.contents.countP finished = 0 := by
  have hrun : (echoRun storingBranch 8).bind (fun s =>
      (run (Phase.perform echo echoConfig ⟨[storingBranch], by simp⟩ echoTurn.toEnv) s.tick
        (phases.take 7)).map fun s' => (s'.inflightMemExecutions, s'.completedExecutions)) =
      some (1, 0) := by decide +kernel
  obtain ⟨s, hs, hrun⟩ := Option.bind_eq_some_iff.mp hrun
  obtain ⟨s', hs', hcounters⟩ := Option.map_eq_some_iff.mp hrun
  obtain ⟨hone, hzero⟩ := Prod.mk.inj hcounters
  have hcalls : Ops echo echoConfig ⟨[storingBranch], by simp⟩ Eq s.tick s' :=
    (phases_calls _ _ hs').ops
  obtain ⟨-, hmem, hdone, -⟩ :=
    counters_exact (((echoRun_reaches hs).op (.tick s)).ops hcalls)
  exact ⟨s, s', hs, hs', hone, hmem.symm.trans hone, hdone.symm.trans hzero⟩

end O3
end ChampSim
