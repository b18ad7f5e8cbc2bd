import ChampSim.O3.Books

/-!
# ChampSim.O3.Forward

What an executing store does to the load queue.

* `visits s k`          — the load operands that `execute_store` visits for the store in slot `k`.
* `executeStore_eq`     — it is the end of the store, and one `resolveLoad` for each visit.
* `run_resolve`         — what the visits do when no assertion fails.
* `waiting s k`         — the loads whose producer and address are those of the store.
* `ForwardsExactly s k` — `execute_store` completes these, each once, and no other.
* `StillWaiting s k`    — each operand visited is one of them.
* `forwards_exactly_iff` — in every state reached the one means the other.
* `younger_producer`    — a store that meets the load of a younger one.
-/

namespace ChampSim
namespace O3

open Lib ChampSim.Core

variable {μ : Type}

/-! ## The visits -/

/-- Source `source` of the instruction at `instr`, which names the slot `slot`. -/
structure Visit where
  instr : Nat
  source : Nat
  slot : Nat
deriving DecidableEq, Repr

/-- Of the sources `js` those that read `address` and have been added. -/
def matching (address : Nat) (x : OooModelInstr) (js : List Nat) : List Nat :=
  js.filter fun j => x.sourceMemory j ≠ 0 ∧ x.sourceAdded j ∧ x.sourceMemory j = address

def visitsOf (address i : Nat) (x : OooModelInstr) (js : List Nat) : List Visit :=
  (matching address x js).map fun j => ⟨i, j, x.lqIndex j⟩

def visits (s : Cpu μ) (k : Nat) : List Visit :=
  let x := s.rob.entry (s.sq.entry k).robIndex
  if x.isProducer then
    (expand x.memoryInstrsDependOnMe robSize).flatMap fun i =>
      visitsOf (s.sq.entry k).virtualAddress i (s.rob.entry i) (List.range numInstrSources)
  else []

def resolve (robIndex k : Nat) (s : Cpu μ) (v : Visit) : Option (Cpu μ) :=
  resolveLoad robIndex k v.instr v.source v.slot s

/-- The part of an instruction that decides on the visits. -/
def sources (x : OooModelInstr) : (Nat → Nat) × (Nat → Bool) × (Nat → Nat) :=
  (x.sourceMemory, x.sourceAdded, x.lqIndex)

theorem visitsOf_cons (address i : Nat) (x : OooModelInstr) (j : Nat) (js : List Nat) :
    visitsOf address i x (j :: js) =
      if x.sourceMemory j ≠ 0 ∧ x.sourceAdded j ∧ x.sourceMemory j = address then
        ⟨i, j, x.lqIndex j⟩ :: visitsOf address i x js
      else visitsOf address i x js := by
  unfold visitsOf matching
  rw [List.filter_cons]
  by_cases hmatch : x.sourceMemory j ≠ 0 ∧ x.sourceAdded j ∧ x.sourceMemory j = address
  · rw [if_pos (decide_eq_true hmatch), if_pos hmatch, List.map_cons]
  · rw [if_neg (by simpa using hmatch), if_neg hmatch]

/-! ## One visit -/

section Visit

variable {s s' : Cpu μ} {i j k l d cycle : Nat}

/-- `finish_mem_op` on the instruction. -/
def opFinished (cycle : Nat) (x : OooModelInstr) : OooModelInstr :=
  { x with numMemOps := x.numMemOps - 1, eventCycle := cycle }

theorem finishMemOp_eq (i cycle : Nat) (s : Cpu μ) :
    finishMemOp i cycle s =
      if (s.rob.entry i).numMemOps < 1 then none
      else some { s.modifyRob i (opFinished cycle) with
        inflightMemExecutions :=
          if (s.rob.entry i).numMemOps = 1 then add32 s.inflightMemExecutions 1
          else s.inflightMemExecutions } := by
  have hops : ((s.modifyRob i (opFinished cycle)).rob.entry i).numMemOps =
      (s.rob.entry i).numMemOps - 1 := congrArg OooModelInstr.numMemOps (modify_self s.rob i _)
  show (if ((s.modifyRob i (opFinished cycle)).rob.entry i).numMemOps < 0 then none
    else if ((s.modifyRob i (opFinished cycle)).rob.entry i).numMemOps = 0 then _ else _) = _
  rw [hops]
  by_cases hneg : (s.rob.entry i).numMemOps < 1
  · rw [if_pos hneg, if_pos (by omega)]
  · rw [if_neg hneg, if_neg (by omega)]
    by_cases hone : (s.rob.entry i).numMemOps = 1
    · simp only [hone]
      rfl
    · rw [if_neg (by omega), if_neg hone]
      rfl

theorem finishMemOp_some (h : finishMemOp i cycle s = some s') :
    1 ≤ (s.rob.entry i).numMemOps ∧ s'.rob = modify s.rob i (opFinished cycle) ∧
      s'.lq = s.lq ∧ s'.sq = s.sq ∧ s'.cycle = s.cycle := by
  rw [finishMemOp_eq] at h
  split at h
  · cases h
  · cases h
    exact ⟨by omega, rfl, rfl, rfl, rfl⟩

theorem finishMemOp_isSome (h : 1 ≤ (s.rob.entry i).numMemOps) (cycle : Nat) :
    ∃ s', finishMemOp i cycle s = some s' := by
  rw [finishMemOp_eq, if_neg (by omega)]
  exact ⟨_, rfl⟩

theorem modifyLq_self (s : Cpu μ) (l : Nat) (f : LsqEntry → LsqEntry) :
    (s.modifyLq l f).lq.entry l = f (s.lq.entry l) := Function.update_self ..

/-- The load in slot `l` has its data and leaves the queue. -/
structure LoadDone (l : Nat) (s s' : Cpu μ) : Prop where
  sq : s'.sq = s.sq
  rob : Ring.Alike sources s.rob s'.rob
  size : s'.lq.size = s.lq.size
  entry : s'.lq.entry = Function.update s.lq.entry l .empty
  occupancy : s'.lq.occupancy = s.lq.occupancy - 1
  ops : ∀ i, (s'.rob.entry i).numMemOps =
    (s.rob.entry i).numMemOps - if (s.lq.entry l).robIndex = i then 1 else 0

theorem numMemOps_finished (r : Lib.Ring OooModelInstr) (d i cycle : Nat) :
    ((modify r d (opFinished cycle)).entry i).numMemOps =
      (r.entry i).numMemOps - if d = i then 1 else 0 := by
  by_cases hi : i = d
  · subst hi
    rw [modify_self, if_pos rfl]
    rfl
  · rw [modify_ne hi, if_neg (Ne.symm hi), Int.sub_zero]

theorem resolveLoad_some (h : resolveLoad i k d j l s = some s') :
    l < s.lq.size ∧ (s.lq.entry l).producerId = (s.sq.entry k).instrId ∧ LoadDone l s s' := by
  unfold resolveLoad at h
  split at h
  · cases h
  · rename_i hsize
    split at h
    · cases h
    · rename_i hproducer
      refine ⟨Nat.lt_of_not_le hsize, not_not.mp hproducer, ?_⟩
      obtain ⟨t, ht, rfl⟩ := Option.map_eq_some_iff.mp h
      obtain ⟨-, hrob, hlq, hsq, -⟩ := finishMemOp_some ht
      simp only [modifyLq_self] at hrob
      have hrob : t.rob = modify s.rob (s.lq.entry l).robIndex (opFinished s.cycle) := hrob
      have halike : Ring.Alike sources s.rob t.rob := hrob ▸ .of_update rfl
      have hops : ∀ i, (t.rob.entry i).numMemOps =
          (s.rob.entry i).numMemOps - if (s.lq.entry l).robIndex = i then 1 else 0 := by
        intro i
        rw [hrob, numMemOps_finished]
      have hentry : (releaseLoadQueue l t).lq.entry = Function.update s.lq.entry l .empty := by
        show Function.update t.lq.entry l _ = _
        rw [hlq]
        exact Function.update_idem ..
      have hocc : (releaseLoadQueue l t).lq.occupancy = s.lq.occupancy - 1 := by
        show t.lq.occupancy - 1 = _
        rw [hlq]
        rfl
      have hsize : t.lq.size = s.lq.size := (congrArg Ring.size hlq).trans rfl
      split
      · have hagain : Ring.Alike OooModelInstr.numMemOps t.rob
            ((releaseLoadQueue l t).modifyRob i fun x =>
              { x with memoryInstrsDependOnMe := insert d x.memoryInstrsDependOnMe }).rob :=
          .of_update rfl
        exact ⟨hsq, halike.trans (.of_update rfl), hsize, hentry, hocc, fun n =>
          (hagain.entry n).trans (hops n)⟩
      · exact ⟨hsq, halike, hsize, hentry, hocc, hops⟩

theorem resolveLoad_isSome (hl : l < s.lq.size)
    (hproducer : (s.lq.entry l).producerId = (s.sq.entry k).instrId)
    (hops : 1 ≤ (s.rob.entry (s.lq.entry l).robIndex).numMemOps) :
    ∃ s', resolveLoad i k d j l s = some s' := by
  unfold resolveLoad
  rw [if_neg (Nat.not_le.mpr hl), if_neg (not_not.mpr hproducer)]
  simp only [modifyLq_self]
  obtain ⟨t, ht⟩ := finishMemOp_isSome (s := s.modifyLq l fun e => { e with
    physicalAddress := blockOffset (s.sq.entry k).physicalAddress e.virtualAddress
    translated := .completed
    fetched := .completed
    eventCycle := s.cycle }) (i := (s.lq.entry l).robIndex) hops s.cycle
  exact ⟨_, Option.map_eq_some_iff.mpr ⟨t, ht, rfl⟩⟩

end Visit

/-! ## All visits -/

section Visits

variable {s s' t : Cpu μ} {i k : Nat}

theorem resolveSources_eq {d address : Nat} (hsq : (t.sq.entry k).virtualAddress = address)
    {x : OooModelInstr} (hx : sources (t.rob.entry d) = sources x) (js : List Nat) :
    resolveSources i k d js t = run (resolve i k) t (visitsOf address d x js) := by
  induction js generalizing t with
  | nil => rfl
  | cons j js ih =>
    have hat := hx
    simp only [sources, Prod.mk.injEq] at hat
    obtain ⟨hmemory, hadded, hslot⟩ := hat
    unfold resolveSources
    dsimp only
    rw [hmemory, hadded, hslot, hsq, visitsOf_cons]
    by_cases hmatch : x.sourceMemory j ≠ 0 ∧ x.sourceAdded j ∧ x.sourceMemory j = address
    · rw [if_pos hmatch, if_pos hmatch]
      cases hr : resolveLoad i k d j (x.lqIndex j) t with
      | none => exact (run_cons_none hr).symm
      | some t' =>
        obtain ⟨-, -, hdone⟩ := resolveLoad_some hr
        refine (ih (by rw [hdone.sq, hsq]) ((hdone.rob.entry d).trans hx)).trans ?_
        exact (run_cons_some hr).symm
    · rw [if_neg hmatch, if_neg hmatch]
      exact ih hsq hx

/-- What the visits leave alone. -/
theorem run_resolve_frame {vs : List Visit} (h : run (resolve i k) t vs = some s') :
    Ring.Alike sources t.rob s'.rob ∧ s'.sq = t.sq := by
  induction vs generalizing t with
  | nil =>
    cases h
    exact ⟨.refl .., rfl⟩
  | cons v vs ih =>
    obtain ⟨t', ht, h⟩ := run_cons_inv h
    obtain ⟨-, -, hdone⟩ := resolveLoad_some ht
    obtain ⟨hrob, hsq⟩ := ih h
    exact ⟨hdone.rob.trans hrob, hsq.trans hdone.sq⟩

theorem resolveDependents_eq (hrob : Ring.Alike sources s.rob t.rob)
    (hsq : (t.sq.entry k).virtualAddress = (s.sq.entry k).virtualAddress) (ds : List Nat) :
    resolveDependents i k ds t = run (resolve i k) t (ds.flatMap fun d =>
      visitsOf (s.sq.entry k).virtualAddress d (s.rob.entry d) (List.range numInstrSources)) := by
  induction ds generalizing t with
  | nil => rfl
  | cons d ds ih =>
    rw [List.flatMap_cons, run_append, ← resolveSources_eq hsq (hrob.entry d)]
    unfold resolveDependents
    cases hr : resolveSources i k d (List.range numInstrSources) t with
    | none => rfl
    | some t' =>
      rw [resolveSources_eq hsq (hrob.entry d)] at hr
      obtain ⟨hrob', hsq'⟩ := run_resolve_frame hr
      exact ih (hrob.trans hrob') (by rw [hsq', hsq])

/-- What `execute_store` does to the store itself. -/
def storeDone (k : Nat) (s : Cpu μ) : Cpu μ :=
  s.modifySq k fun e => { e with fetched := .completed, eventCycle := s.cycle }

theorem executeStore_eq (s : Cpu μ) (k : Nat) :
    executeStore (s.sq.entry k).robIndex k s =
      (finishMemOp (s.sq.entry k).robIndex s.cycle (storeDone k s)).bind fun t =>
        run (resolve (s.sq.entry k).robIndex k) t (visits s k) := by
  show (finishMemOp (s.sq.entry k).robIndex s.cycle (storeDone k s)).bind _ = _
  cases hf : finishMemOp (s.sq.entry k).robIndex s.cycle (storeDone k s) with
  | none => rfl
  | some t =>
    obtain ⟨-, hrob, -, hsq, -⟩ := finishMemOp_some hf
    have hrob : t.rob = modify s.rob (s.sq.entry k).robIndex (opFinished s.cycle) := hrob
    have halike : Ring.Alike sources s.rob t.rob := hrob ▸ .of_update rfl
    have haddress : (t.sq.entry k).virtualAddress = (s.sq.entry k).virtualAddress := by
      have hself : (storeDone k s).sq.entry k = { s.sq.entry k with
          fetched := .completed, eventCycle := s.cycle } := Function.update_self ..
      rw [hsq, hself]
    have hflag : (t.rob.entry (s.sq.entry k).robIndex).isProducer =
        (s.rob.entry (s.sq.entry k).robIndex).isProducer := by
      rw [hrob, modify_self]
      rfl
    have hdependents : (t.rob.entry (s.sq.entry k).robIndex).memoryInstrsDependOnMe =
        (s.rob.entry (s.sq.entry k).robIndex).memoryInstrsDependOnMe := by
      rw [hrob, modify_self]
      rfl
    simp only [Option.bind_some]
    unfold visits
    dsimp only
    rw [hflag, hdependents]
    split
    · exact resolveDependents_eq halike haddress _
    · rfl

/-- Runs that pass every assertion: each visit finds its load waiting, and takes it away. -/
theorem run_resolve {vs : List Visit} (hid : (t.sq.entry k).instrId ≠ u64Max)
    (h : run (resolve i k) t vs = some s') :
    (vs.map Visit.slot).Nodup ∧
      (∀ l ∈ vs.map Visit.slot, (t.lq.entry l).producerId = (t.sq.entry k).instrId) ∧
      (∀ l, s'.lq.entry l = if l ∈ vs.map Visit.slot then .empty else t.lq.entry l) ∧
      s'.lq.occupancy = t.lq.occupancy - vs.length ∧
      ∀ n, (s'.rob.entry n).numMemOps = (t.rob.entry n).numMemOps -
        (vs.map Visit.slot).countP fun l => (t.lq.entry l).robIndex = n := by
  induction vs generalizing t with
  | nil =>
    cases h
    simp
  | cons v vs ih =>
    obtain ⟨t', ht, h⟩ := run_cons_inv h
    obtain ⟨hsize, hproducer, hdone⟩ := resolveLoad_some ht
    obtain ⟨hnodup, hproducers, hentry, hocc, hops⟩ := ih (by rw [hdone.sq]; exact hid) h
    rw [hdone.sq] at hproducers
    have hself : t'.lq.entry v.slot = .empty := by rw [hdone.entry, Function.update_self]
    have hother : ∀ l ≠ v.slot, t'.lq.entry l = t.lq.entry l := fun l hl => by
      rw [hdone.entry, Function.update_of_ne hl]
    -- a slot visited twice would name no producer the second time
    have hnew : v.slot ∉ vs.map Visit.slot := by
      intro hmem
      have hagain := hproducers _ hmem
      rw [hself] at hagain
      exact hid hagain.symm
    have hne : ∀ l ∈ vs.map Visit.slot, l ≠ v.slot := fun l hl heq => hnew (heq ▸ hl)
    refine ⟨List.nodup_cons.mpr ⟨hnew, hnodup⟩, fun l hl => ?_, fun l => ?_, ?_, fun n => ?_⟩
    · rcases List.mem_cons.mp hl with rfl | hl
      · exact hproducer
      · rw [← hother l (hne l hl)]
        exact hproducers l hl
    · rw [hentry l, List.map_cons]
      by_cases hl : l = v.slot
      · subst hl
        rw [if_neg hnew, hself, if_pos List.mem_cons_self]
      · rw [hother l hl]
        simp [hl]
    · rw [hocc, hdone.occupancy, List.length_cons]
      omega
    · have hcount : (vs.map Visit.slot).countP (fun l => (t'.lq.entry l).robIndex = n) =
          (vs.map Visit.slot).countP fun l => (t.lq.entry l).robIndex = n :=
        List.countP_congr fun l hl => by rw [hother l (hne l hl)]
      rw [hops n, hdone.ops n, hcount, List.map_cons, List.countP_cons]
      by_cases hn : (t.lq.entry v.slot).robIndex = n
      · simp only [hn, decide_true, if_true]
        omega
      · simp only [hn, decide_false, if_false]
        simp

/-- Visits of different loads that all wait for the store pass the assertions. -/
theorem run_resolve_isSome {vs : List Visit} (hnodup : (vs.map Visit.slot).Nodup)
    (hwait : ∀ l ∈ vs.map Visit.slot, l < t.lq.size ∧
      (t.lq.entry l).producerId = (t.sq.entry k).instrId)
    (hops : ∀ l ∈ vs.map Visit.slot, ((vs.map Visit.slot).countP fun l' =>
      (t.lq.entry l').robIndex = (t.lq.entry l).robIndex : Int) ≤
        (t.rob.entry (t.lq.entry l).robIndex).numMemOps) :
    ∃ s', run (resolve i k) t vs = some s' := by
  induction vs generalizing t with
  | nil => exact ⟨t, rfl⟩
  | cons v vs ih =>
    rw [List.map_cons] at hnodup hwait hops
    obtain ⟨hnew, hnodup⟩ := List.nodup_cons.mp hnodup
    obtain ⟨hsize, hproducer⟩ := hwait v.slot List.mem_cons_self
    have hfirst := hops v.slot List.mem_cons_self
    rw [List.countP_cons_of_pos (by simp)] at hfirst
    obtain ⟨t', ht⟩ := resolveLoad_isSome (i := i) (d := v.instr) (j := v.source) hsize hproducer
      (by omega)
    obtain ⟨-, -, hdone⟩ := resolveLoad_some ht
    have hother : ∀ l ∈ vs.map Visit.slot, t'.lq.entry l = t.lq.entry l := by
      intro l hl
      rw [hdone.entry, Function.update_of_ne]
      rintro rfl
      exact hnew hl
    obtain ⟨s', hs'⟩ := ih (t := t') hnodup
      (fun l hl => by
        rw [hother l hl, hdone.sq, hdone.size]
        exact hwait l (List.mem_cons_of_mem _ hl))
      (fun l hl => by
        have hcount : (vs.map Visit.slot).countP
            (fun l' => (t'.lq.entry l').robIndex = (t'.lq.entry l).robIndex) =
            (vs.map Visit.slot).countP
              fun l' => (t.lq.entry l').robIndex = (t.lq.entry l).robIndex :=
          List.countP_congr fun l' hl' => by rw [hother l' hl', hother l hl]
        have hl' := hops l (List.mem_cons_of_mem _ hl)
        rw [List.countP_cons] at hl'
        rw [hcount, hother l hl, hdone.ops]
        by_cases hsame : (t.lq.entry v.slot).robIndex = (t.lq.entry l).robIndex
        · simp only [hsame, decide_true, if_true] at hl' ⊢
          omega
        · simp only [hsame, decide_false, if_false] at hl' ⊢
          simpa using hl')
    exact ⟨s', (run_cons_some ht).trans hs'⟩

end Visits

/-! ## The loads that wait -/

/-- The loads whose producer and address are those of the store in slot `k`. -/
def waiting (s : Cpu μ) (k : Nat) : Finset Nat :=
  (Finset.range lqSize).filter fun l =>
    (s.lq.entry l).producerId = (s.sq.entry k).instrId ∧
      (s.lq.entry l).virtualAddress = (s.sq.entry k).virtualAddress

/-- How many operands of the instruction at `i` complete with the store. -/
def completing (s : Cpu μ) (k i : Nat) : Nat :=
  (if (s.sq.entry k).robIndex = i then 1 else 0) +
    ((waiting s k).filter fun l => (s.lq.entry l).robIndex = i).card

/-- `num_mem_ops` has counted them. -/
def Counted (s : Cpu μ) (k : Nat) : Prop :=
  ∀ i, completing s k i ≠ 0 → (completing s k i : Int) ≤ (s.rob.entry i).numMemOps

structure ForwardsExactly (s : Cpu μ) (k : Nat) : Prop where
  /-- No assertion fails, as long as `num_mem_ops` has counted the operands. -/
  passes : Counted s k → ∃ s', executeStore (s.sq.entry k).robIndex k s = some s'
  completes : ∀ s', executeStore (s.sq.entry k).robIndex k s = some s' →
    ∀ l, s'.lq.entry l = if l ∈ waiting s k then .empty else s.lq.entry l
  once : ∀ s', executeStore (s.sq.entry k).robIndex k s = some s' →
    s'.lq.occupancy = s.lq.occupancy - (waiting s k).card ∧
      ∀ i, (s'.rob.entry i).numMemOps = (s.rob.entry i).numMemOps - completing s k i

/-- Each operand visited still stands in the queue, and waits for this store. -/
def StillWaiting (s : Cpu μ) (k : Nat) : Prop :=
  ∀ v ∈ visits s k, (s.lq.entry v.slot).producerId = (s.sq.entry k).instrId ∧
    (s.lq.entry v.slot).robIndex = v.instr ∧ (s.lq.entry v.slot).dataIndex = v.source

instance StillWaiting.decidable (s : Cpu μ) (k : Nat) : Decidable (StillWaiting s k) :=
  inferInstanceAs (Decidable (∀ v ∈ visits s k, _))

section Waiting

variable {c : Config} {s s' : Cpu μ} {k l : Nat}

theorem mem_visitsOf {address i : Nat} {x : OooModelInstr} {js : List Nat} {v : Visit} :
    v ∈ visitsOf address i x js ↔ v.instr = i ∧ v.source ∈ js ∧ x.sourceMemory v.source ≠ 0 ∧
      x.sourceAdded v.source = true ∧ x.sourceMemory v.source = address ∧
      v.slot = x.lqIndex v.source := by
  unfold visitsOf matching
  rw [List.mem_map]
  constructor
  · rintro ⟨j, hj, rfl⟩
    obtain ⟨hmem, hmatch⟩ := List.mem_filter.mp hj
    obtain ⟨hne, hadded, haddress⟩ := of_decide_eq_true hmatch
    exact ⟨rfl, hmem, hne, hadded, haddress, rfl⟩
  · rintro ⟨rfl, hmem, hne, hadded, haddress, hslot⟩
    refine ⟨v.source, List.mem_filter.mpr ⟨hmem, decide_eq_true ⟨hne, hadded, haddress⟩⟩, ?_⟩
    rw [← hslot]

/-- An instruction and a source are visited once. -/
theorem visits_nodup (s : Cpu μ) (k : Nat) :
    ((visits s k).map fun v => (v.instr, v.source)).Nodup := by
  unfold visits
  dsimp only
  split
  · have hpairs : ∀ i, (visitsOf (s.sq.entry k).virtualAddress i (s.rob.entry i)
        (List.range numInstrSources)).map (fun v => (v.instr, v.source)) =
        (matching (s.sq.entry k).virtualAddress (s.rob.entry i)
          (List.range numInstrSources)).map fun j => (i, j) := fun i => by
      unfold visitsOf
      rw [List.map_map]
      rfl
    simp only [List.map_flatMap, hpairs]
    refine List.nodup_flatMap.mpr ⟨fun i _ => ?_, ?_⟩
    · exact (List.nodup_range.filter _).map fun j j' hj => (Prod.mk.inj hj).2
    · refine (List.nodup_range.filter _).imp fun hne => ?_
      intro p hp hp'
      obtain ⟨j, -, rfl⟩ := List.mem_map.mp hp
      obtain ⟨j', -, heq⟩ := List.mem_map.mp hp'
      exact hne (Prod.mk.inj heq).1.symm
  · exact .nil

variable (hp : Pipe c s) (hf : FreshIds s) (hl : LoadBooks s) (hs : StoreBooks s)
  (hk : (s.sq.entry k).virtualAddress ≠ 0)

include hp hf hs hk in
theorem instrId_ne : (s.sq.entry k).instrId ≠ u64Max := by
  have hplaced := hs k hk
  rw [← hplaced.id]
  exact Nat.ne_of_lt (hp.id_rob hf hplaced.live).2

include hp hl hs hk in
/-- A load that waits for the store is visited. -/
theorem visit_of_waiting (hwait : l ∈ waiting s k) :
    ⟨(s.lq.entry l).robIndex, (s.lq.entry l).dataIndex, l⟩ ∈ visits s k := by
  obtain ⟨-, hproducer, haddress⟩ := Finset.mem_filter.mp hwait
  have hplaced := hs k hk
  have hrecorded := (hl.slots l).recorded _ hplaced.live (hplaced.id.trans hproducer.symm)
  unfold visits
  dsimp only
  rw [if_pos hrecorded.producer]
  refine List.mem_flatMap.mpr ⟨_, List.mem_filter.mpr
    ⟨List.mem_range.mpr ?_, decide_eq_true hrecorded.dependent⟩, mem_visitsOf.mpr ?_⟩
  · exact hp.window.lt_size hrecorded.live
  · refine ⟨rfl, List.mem_range.mpr hrecorded.operand, ?_, hrecorded.added, ?_,
      hrecorded.slot.symm⟩
    · rw [hrecorded.address, haddress]
      exact hk
    · rw [hrecorded.address, haddress]

include hl hs hk in
/-- A load visited that still waits has the address of the store. -/
theorem waiting_of_visit {v : Visit} (hv : v ∈ visits s k)
    (hwait : (s.lq.entry v.slot).producerId = (s.sq.entry k).instrId ∧
      (s.lq.entry v.slot).robIndex = v.instr ∧ (s.lq.entry v.slot).dataIndex = v.source) :
    v.slot ∈ waiting s k := by
  obtain ⟨hproducer, hinstr, hsource⟩ := hwait
  have hplaced := hs k hk
  have hrecorded := (hl.slots v.slot).recorded _ hplaced.live (hplaced.id.trans hproducer.symm)
  have haddress : (s.lq.entry v.slot).virtualAddress = (s.sq.entry k).virtualAddress := by
    rw [← hrecorded.address, hinstr, hsource]
    unfold visits at hv
    dsimp only at hv
    rw [if_pos hrecorded.producer] at hv
    obtain ⟨i, -, hv⟩ := List.mem_flatMap.mp hv
    obtain ⟨rfl, -, -, -, haddress, -⟩ := mem_visitsOf.mp hv
    exact haddress
  refine Finset.mem_filter.mpr ⟨Finset.mem_range.mpr ?_, hproducer, haddress⟩
  exact (hl.slots v.slot).inside (by rw [haddress]; exact hk)

/-- The slots of the visits, when each still waits, are those of the waiting loads. -/
theorem StillWaiting.slots (h : StillWaiting s k) : ((visits s k).map Visit.slot).Nodup := by
  have hpairs := visits_nodup s k
  refine List.Nodup.map_on (fun v hv v' hv' hslot => ?_) (.of_map _ hpairs)
  obtain ⟨-, hinstr, hsource⟩ := h v hv
  obtain ⟨-, hinstr', hsource'⟩ := h v' hv'
  rw [hslot] at hinstr hsource
  cases v
  cases v'
  simp only [Visit.mk.injEq]
  exact ⟨hinstr.symm.trans hinstr', hsource.symm.trans hsource', hslot⟩

include hp hl hs hk in
theorem StillWaiting.mem_slots (h : StillWaiting s k) (l : Nat) :
    l ∈ (visits s k).map Visit.slot ↔ l ∈ waiting s k := by
  constructor
  · intro hmem
    obtain ⟨v, hv, rfl⟩ := List.mem_map.mp hmem
    exact waiting_of_visit hl hs hk hv (h v hv)
  · intro hmem
    exact List.mem_map.mpr ⟨_, visit_of_waiting hp hl hs hk hmem, rfl⟩

/-- Counting slots in the list of the visits, and in the set. -/
theorem countP_slots {slots : List Nat} {w : Finset Nat} (hnodup : slots.Nodup)
    (hmem : ∀ l, l ∈ slots ↔ l ∈ w) (p : Nat → Prop) [DecidablePred p] :
    slots.countP p = (w.filter p).card := by
  have hset : (slots.filter p).toFinset = w.filter p := by
    ext l
    rw [List.mem_toFinset, List.mem_filter, Finset.mem_filter, hmem]
    simp
  rw [← hset, List.toFinset_card_of_nodup (hnodup.filter _), List.countP_eq_length_filter]

end Waiting

/-! ## Exactly the waiting loads -/

section Exact

variable {c : Config} {s s' : Cpu μ} {k : Nat}

/-- The state from which the visits start. -/
structure Started (s : Cpu μ) (k : Nat) (t : Cpu μ) : Prop where
  lq : t.lq = s.lq
  id : (t.sq.entry k).instrId = (s.sq.entry k).instrId
  ops : ∀ i, (t.rob.entry i).numMemOps =
    (s.rob.entry i).numMemOps - if (s.sq.entry k).robIndex = i then 1 else 0

theorem started {t : Cpu μ}
    (h : finishMemOp (s.sq.entry k).robIndex s.cycle (storeDone k s) = some t) :
    Started s k t := by
  obtain ⟨-, hrob, hlq, hsq, -⟩ := finishMemOp_some h
  have hself : (storeDone k s).sq.entry k = { s.sq.entry k with
      fetched := .completed, eventCycle := s.cycle } := Function.update_self ..
  refine ⟨hlq, by rw [hsq, hself], fun i => ?_⟩
  rw [hrob]
  exact numMemOps_finished s.rob _ i s.cycle

/-- What `execute_store` has done when no assertion failed. -/
theorem executeStore_some (hid : (s.sq.entry k).instrId ≠ u64Max)
    (h : executeStore (s.sq.entry k).robIndex k s = some s') :
    ((visits s k).map Visit.slot).Nodup ∧
      (∀ l ∈ (visits s k).map Visit.slot,
        (s.lq.entry l).producerId = (s.sq.entry k).instrId) ∧
      (∀ l, s'.lq.entry l =
        if l ∈ (visits s k).map Visit.slot then .empty else s.lq.entry l) ∧
      s'.lq.occupancy = s.lq.occupancy - (visits s k).length ∧
      ∀ i, (s'.rob.entry i).numMemOps = (s.rob.entry i).numMemOps -
        ((if (s.sq.entry k).robIndex = i then 1 else 0) +
          ((visits s k).map Visit.slot).countP fun l => (s.lq.entry l).robIndex = i : Nat) := by
  rw [executeStore_eq] at h
  obtain ⟨t, ht, hrun⟩ := Option.bind_eq_some_iff.mp h
  obtain ⟨hlq, hsame, hops⟩ := started ht
  obtain ⟨hnodup, hproducers, hentry, hocc, hcount⟩ := run_resolve (by rw [hsame]; exact hid) hrun
  rw [hlq] at hproducers hentry hocc hcount
  rw [hsame] at hproducers
  refine ⟨hnodup, hproducers, hentry, hocc, fun i => ?_⟩
  rw [hcount i, hops i]
  split
  · push_cast
    omega
  · push_cast
    omega

variable (hp : Pipe c s) (hf : FreshIds s) (hl : LoadBooks s) (hs : StoreBooks s)
  (hk : (s.sq.entry k).virtualAddress ≠ 0)

include hp hl hs hk

theorem StillWaiting.passes (h : StillWaiting s k) (hcounted : Counted s k) :
    ∃ s', executeStore (s.sq.entry k).robIndex k s = some s' := by
  have hmem := h.mem_slots hp hl hs hk
  have hcompleting : ∀ i, completing s k i = (if (s.sq.entry k).robIndex = i then 1 else 0) +
      ((visits s k).map Visit.slot).countP fun l => (s.lq.entry l).robIndex = i := fun i => by
    rw [countP_slots h.slots hmem]
    rfl
  have hown : 1 ≤ ((storeDone k s).rob.entry (s.sq.entry k).robIndex).numMemOps := by
    have hle := hcounted (s.sq.entry k).robIndex (by unfold completing; rw [if_pos rfl]; omega)
    have hone : 1 ≤ completing s k (s.sq.entry k).robIndex := by
      unfold completing
      rw [if_pos rfl]
      omega
    show 1 ≤ (s.rob.entry (s.sq.entry k).robIndex).numMemOps
    omega
  obtain ⟨t, ht⟩ := finishMemOp_isSome hown s.cycle
  obtain ⟨hlq, hsame, hops⟩ := started ht
  rw [executeStore_eq, ht, Option.bind_some]
  refine run_resolve_isSome h.slots (fun l hl' => ?_) fun l hl' => ?_
  · obtain ⟨hlt, hproducer, -⟩ := Finset.mem_filter.mp ((hmem l).mp hl')
    rw [hlq, hsame, hl.size]
    exact ⟨Finset.mem_range.mp hlt, hproducer⟩
  · rw [hlq, hops]
    have hpos : 0 < ((visits s k).map Visit.slot).countP fun l' =>
        (s.lq.entry l').robIndex = (s.lq.entry l).robIndex :=
      List.countP_pos_iff.mpr ⟨l, hl', decide_eq_true rfl⟩
    have hle := hcounted (s.lq.entry l).robIndex (by rw [hcompleting]; omega)
    rw [hcompleting] at hle
    split at hle
    · rename_i hsame'
      rw [if_pos hsame']
      push_cast at hle ⊢
      omega
    · rename_i hsame'
      rw [if_neg hsame']
      push_cast at hle ⊢
      omega

include hf

theorem StillWaiting.forwards (h : StillWaiting s k) : ForwardsExactly s k := by
  have hid := instrId_ne hp hf hs hk
  have hmem := h.mem_slots hp hl hs hk
  refine ⟨h.passes hp hl hs hk, fun s' hs' l => ?_, fun s' hs' => ?_⟩
  · obtain ⟨-, -, hentry, -⟩ := executeStore_some hid hs'
    rw [hentry l]
    simp only [hmem]
  · obtain ⟨-, -, -, hocc, hops⟩ := executeStore_some hid hs'
    refine ⟨?_, fun i => ?_⟩
    · rw [hocc, ← List.length_map Visit.slot]
      have hcard := countP_slots h.slots hmem fun _ => True
      simp only [Finset.filter_true] at hcard
      rw [← hcard]
      simp
    · rw [hops i, countP_slots h.slots hmem]
      rfl

/-- The other direction: an operand that no longer waits is touched, or trips an assertion. -/
theorem ForwardsExactly.stillWaiting (h : ForwardsExactly s k) (hcounted : Counted s k) :
    StillWaiting s k := by
  have hid := instrId_ne hp hf hs hk
  obtain ⟨s', hs'⟩ := h.passes hcounted
  obtain ⟨hnodup, hproducers, hentry, -⟩ := executeStore_some hid hs'
  intro v hv
  have hslot : v.slot ∈ (visits s k).map Visit.slot := List.mem_map_of_mem hv
  have hproducer := hproducers _ hslot
  refine ⟨hproducer, ?_⟩
  -- the load leaves the queue, so it is one of those that wait
  have hwait : v.slot ∈ waiting s k := by
    by_contra hnot
    have hkept := h.completes s' hs' v.slot
    rw [if_neg hnot, hentry v.slot, if_pos hslot] at hkept
    rw [← hkept] at hproducer
    exact hid hproducer.symm
  have hself := visit_of_waiting hp hl hs hk hwait
  have heq := List.inj_on_of_nodup_map hnodup hself hv rfl
  exact ⟨congrArg Visit.instr heq, congrArg Visit.source heq⟩

end Exact

/-! ## In every state reached -/

theorem forwards_exactly_iff {M : Memory μ} {c : Config} {t : Trace} {O : μ → μ → Prop}
    {s : Cpu μ} (h : Reaches M c t O s) (hf : FreshIds s) {k : Nat}
    (hk : (s.sq.entry k).virtualAddress ≠ 0) :
    (StillWaiting s k → ForwardsExactly s k) ∧
      (Counted s k → ForwardsExactly s k → StillWaiting s k) := by
  obtain ⟨hp, hl, hs⟩ := reaches_books h hf
  exact ⟨fun hwait => hwait.forwards hp hf hl hs hk,
    fun hcounted hexact => hexact.stillWaiting hp hf hl hs hk hcounted⟩

/-- A store to two addresses, a store to the second of them, a load of both. -/
def twoProducers : Trace where
  records :=
    [{ InputInstr.empty with
        ip := 64
        destinationMemory := fun i => if i = 0 then 4096 else if i = 1 then 8192 else 0 },
      { InputInstr.empty with
        ip := 68
        destinationMemory := fun i => if i = 0 then 8192 else 0 },
      { InputInstr.empty with
        ip := 72
        sourceMemory := fun i => if i = 0 then 4096 else if i = 1 then 8192 else 0 }] ++
    List.replicate 9 { InputInstr.empty with ip := 76 }
  nonempty := by simp

def twoProducersRun (n : Nat) : Option (Cpu (Server → List Packet)) :=
  run (cycle echo echoConfig twoProducers) (.init fun _ => []) (List.replicate n echoTurn)

theorem twoProducersRun_reaches {n : Nat} {s : Cpu (Server → List Packet)}
    (h : twoProducersRun n = some s) : Reaches echo echoConfig twoProducers Eq s :=
  echo_reaches h

/-- After ten cycles the load of 4096 waits for the store in slot 2. -/
theorem forwards_exactly_iff_first : ∃ s, twoProducersRun 10 = some s ∧ waiting s 2 = {0} ∧
    ForwardsExactly s 2 := by
  have hrun : (twoProducersRun 10).map (fun s => (decide (waiting s 2 = {0}),
      decide (StillWaiting s 2), (s.sq.entry 2).virtualAddress, s.retired.length,
      (inFlight s).length)) = some (true, true, 4096, 0, 36) := by decide +kernel
  obtain ⟨s, hs, hfacts⟩ := Option.map_eq_some_iff.mp hrun
  simp only [Prod.mk.injEq, decide_eq_true_eq] at hfacts
  obtain ⟨hload, hwait, haddress, hretired, hflight⟩ := hfacts
  refine ⟨s, hs, hload, (forwards_exactly_iff (twoProducersRun_reaches hs) ?_ ?_).1 hwait⟩
  · unfold FreshIds
    rw [hretired, hflight]
    decide
  · rw [haddress]
    decide

/-- After twelve cycles the other store of that instruction executes. It visits the load of 8192,
whose producer is the younger instruction 2. -/
theorem younger_producer : ∃ s, twoProducersRun 12 = some s ∧
    ((s.rts .one).front = 3 ∧ (s.sq.entry 3).eventCycle ≤ s.cycle) ∧
    ((s.sq.entry 3).instrId = 1 ∧ (s.sq.entry 3).virtualAddress = 8192) ∧
    ((s.lq.entry 1).producerId = 2 ∧ (s.lq.entry 1).virtualAddress = 8192) ∧
    twoProducersRun 13 = none ∧ ¬ ForwardsExactly s 3 := by
  have hrun : (twoProducersRun 12).map (fun s => (((s.rts .one).front,
      decide ((s.sq.entry 3).eventCycle ≤ s.cycle)), ((s.sq.entry 3).instrId,
      (s.sq.entry 3).virtualAddress), ((s.lq.entry 1).producerId, (s.lq.entry 1).virtualAddress),
      decide (waiting s 3 = ∅), (s.rob.entry (s.sq.entry 3).robIndex).numMemOps,
      (executeStore (s.sq.entry 3).robIndex 3 s).isNone)) =
      some ((3, true), (1, 8192), (2, 8192), true, 1, true) := by decide +kernel
  obtain ⟨s, hs, hfacts⟩ := Option.map_eq_some_iff.mp hrun
  simp only [Prod.mk.injEq, decide_eq_true_eq] at hfacts
  obtain ⟨hfront, hstore, hload, hwait, hops, hnone⟩ := hfacts
  refine ⟨s, hs, hfront, hstore, hload, by decide +kernel, fun hexact => ?_⟩
  have hcompleting : ∀ i, completing s 3 i = if (s.sq.entry 3).robIndex = i then 1 else 0 := by
    intro i
    unfold completing
    rw [hwait]
    rfl
  have hcounted : Counted s 3 := by
    intro i hi
    rw [hcompleting] at hi ⊢
    split at hi
    · rename_i howner
      rw [if_pos howner, ← howner, hops]
      rfl
    · exact absurd rfl hi
  obtain ⟨s', hs'⟩ := hexact.passes hcounted
  rw [hs'] at hnone
  cases hnone

end O3
end ChampSim
